import Xv6Container.Memory.Vm

/-! Which user pages a page table maps. Each function of `vm.c` is described by the entries it
leaves; `copyuvm` never panics on a page table that maps just the pages below its size. -/

namespace Xv6Container.Memory

open Lib

variable {d d₀ : PageDir} {m : Kmem} {a b va sz oldsz newsz fuel : ℕ} {r : Stop} {n : ℤ}

/-! ### Entries of user addresses -/

/-- The entry of a user address. -/
def PageDir.mapped (d : PageDir) (va : ℕ) : Option Pte := d.entry (PDX va, PTX va)

/-- The pages below a size are mapped, and no other user page. -/
def PageDir.Maps (d : PageDir) (sz : ℕ) : Prop :=
  ∀ b, b < KERNBASE → ((d.mapped b).isSome ↔ b < PGROUNDUP sz)

theorem place_eq (ha : a < KERNBASE) (hb : b < KERNBASE) :
    (PDX b, PTX b) = (PDX a, PTX a) ↔ b / PGSIZE = a / PGSIZE := by
  simp only [KERNBASE] at ha hb
  simp only [Prod.mk.injEq, PDX, PTX, Fin.mk.injEq, NUPDE, NPTENTRIES, PGSIZE]
  omega

theorem PageDir.setEntry_mapped (ha : a < KERNBASE) (hb : b < KERNBASE)
    (h : (d.user (PDX a)).isSome) (x : Option Pte) :
    (d.setEntry (PDX a, PTX a) x).mapped b =
      if b / PGSIZE = a / PGSIZE then x else d.mapped b := by
  obtain ⟨t, ht⟩ := Option.isSome_iff_exists.1 h
  have huser : (d.setEntry (PDX a, PTX a) x).user = Function.update d.user (PDX a)
      (some { t with pte := Function.update t.pte (PTX a) x }) := by
    simp only [setEntry, setTable, ht, Option.map_some]
  unfold mapped entry
  rw [huser]
  by_cases hpage : b / PGSIZE = a / PGSIZE
  · rw [if_pos hpage, (place_eq ha hb).2 hpage, Function.update_self]
    exact Function.update_self ..
  · rw [if_neg hpage]
    have hne := mt (place_eq ha hb).1 hpage
    by_cases hdir : PDX b = PDX a
    · have htab : PTX b ≠ PTX a := fun htab => hne (by rw [hdir, htab])
      rw [hdir, Function.update_self, ht]
      exact Function.update_of_ne htab ..
    · rw [Function.update_of_ne hdir]

/-- A new page table has no entries. -/
theorem PageDir.setTable_mapped {pgtab : Page} {i : Fin NUPDE} (h : d.user i = none) (b : ℕ) :
    (d.setTable i (some ⟨pgtab, fun _ => none⟩)).mapped b = d.mapped b := by
  have huser : (d.setTable i (some ⟨pgtab, fun _ => none⟩)).user =
      Function.update d.user i (some ⟨pgtab, fun _ => none⟩) := rfl
  unfold mapped entry
  rw [huser]
  by_cases hi : PDX b = i
  · subst hi
    rw [Function.update_self, h]
    rfl
  · rw [Function.update_of_ne hi]

theorem PageDir.mapped_none (h : d.user (PDX a) = none) (hb : PDX b = PDX a) :
    d.mapped b = none := by
  rw [mapped, entry, hb, h]
  rfl

theorem PGROUNDUP_of_le (h : sz ≤ KERNBASE) : PGROUNDUP sz = (sz + 4095) / 4096 * 4096 := by
  simp only [KERNBASE] at h
  simp only [PGROUNDUP, PGSIZE, UINT]
  omega

/-! ### One entry -/

/-- `copyuvm` has not panicked. -/
def Tame (r : Stop) : Prop :=
  r ≠ .panic "copyuvm: pte should exist" ∧ r ≠ .panic "copyuvm: page not present"

theorem tame_disabled : Tame .disabled := ⟨nofun, nofun⟩

theorem tame_panic {msg : String} (h : msg ≠ "copyuvm: pte should exist")
    (h' : msg ≠ "copyuvm: page not present") : Tame (.panic msg) := by
  constructor
  · rintro ⟨⟩
    exact h rfl
  · rintro ⟨⟩
    exact h' rfl

theorem kalloc_tame : Ends (fun _ _ => True) Tame (kalloc m) := by
  simp only [kalloc, run_get_bind]
  cases m.freelist <;> exact ends_ok.2 trivial

theorem kfree_tame {v : Page} : Ends (fun _ _ => True) Tame (kfree v m) := by
  simp only [kfree, run_get_bind]
  split_ifs
  · exact ends_error.2 (tame_panic (by decide) (by decide))
  · exact ends_ok.2 trivial

/-- The look without `alloc`. -/
theorem walkpgdir_look (h : va < KERNBASE) : walkpgdir d va false m =
    .ok (d, (d.user (PDX va)).map fun _ => (PDX va, PTX va)) m := by
  simp only [walkpgdir, if_neg (not_le.2 h)]
  cases d.user (PDX va) <;> rfl

theorem walkpgdir_mapped (h : va < KERNBASE) :
    Ends (fun x _ => (∀ b, x.1.mapped b = d.mapped b) ∧
      ∀ l, x.2 = some l → l = (PDX va, PTX va) ∧ (x.1.user (PDX va)).isSome) Tame
      (walkpgdir d va true m) := by
  simp only [walkpgdir, if_neg (not_le.2 h)]
  cases ht : d.user (PDX va) with
  | some t =>
    refine ends_ok.2 ⟨fun _ => rfl, ?_⟩
    rintro l ⟨⟩
    exact ⟨rfl, by rw [ht]; rfl⟩
  | none =>
    simp only [if_true]
    refine kalloc_tame.bind fun o m' _ => ?_
    cases o with
    | none => exact ends_ok.2 ⟨fun _ => rfl, nofun⟩
    | some pgtab =>
      refine ends_ok.2 ⟨PageDir.setTable_mapped ht, ?_⟩
      rintro l ⟨⟩
      refine ⟨rfl, ?_⟩
      change (Function.update d.user (PDX va) _ (PDX va)).isSome
      rw [Function.update_self]
      rfl

theorem mappages_mapped {pte : Pte} (h : va < KERNBASE) :
    Ends (fun x _ => ∀ b, b < KERNBASE → x.1.mapped b =
      if x.2 = true ∧ b / PGSIZE = va / PGSIZE then some pte else d.mapped b) Tame
      (mappages d va pte m) := by
  refine (walkpgdir_mapped h).bind fun x m' ⟨hx, hl⟩ => ?_
  obtain ⟨d', o⟩ := x
  cases o with
  | none =>
    refine ends_ok.2 fun b _ => ?_
    rw [if_neg fun h => Bool.false_ne_true h.1]
    exact hx b
  | some l =>
    obtain ⟨rfl, htab⟩ := hl l rfl
    dsimp only
    split_ifs
    · exact ends_error.2 (tame_panic (by decide) (by decide))
    · refine ends_ok.2 fun b hb => ?_
      rw [PageDir.setEntry_mapped h hb htab]
      simp only [true_and, hx]

/-! ### `deallocuvm` and `freevm` -/

theorem deallocLoop_mapped (hsz : oldsz ≤ KERNBASE) (ha : a % PGSIZE = 0)
    (hfuel : oldsz ≤ a + fuel * PGSIZE) :
    Ends (fun x _ => ∀ b, b < KERNBASE → x.mapped b =
      if a ≤ b ∧ b / PGSIZE * PGSIZE < oldsz then none else d.mapped b) Tame
      (deallocLoop fuel d a oldsz m) := by
  induction fuel generalizing d a m with
  | zero =>
    refine ends_ok.2 fun b hb => ?_
    simp only [PGSIZE] at ha hfuel ⊢
    rw [if_neg (by omega)]
  | succ fuel ih =>
    simp only [PGSIZE] at ha hfuel
    unfold deallocLoop
    split_ifs with hlt
    · have hva : a < KERNBASE := by omega
      rw [run_bind_ok (walkpgdir_look hva)]
      cases ht : d.user (PDX a) with
      | none =>
        refine (ih (by simp only [PGSIZE]; omega) (by simp only [PGSIZE]; omega)).post
          fun x m' hx b hb => ?_
        rw [hx b hb]
        by_cases hnext : (a / 0x400000 + 1) * 0x400000 ≤ b
        · have : a ≤ b := by omega
          simp only [hnext, this, true_and]
        · rw [if_neg fun h => hnext h.1]
          by_cases hab : a ≤ b
          · have hdir : PDX b = PDX a := by
              simp only [PDX, Fin.mk.injEq]
              congr 1
              omega
            rw [PageDir.mapped_none ht hdir, ite_self]
          · rw [if_neg fun h => hab h.1]
      | some t =>
        have htab : (d.user (PDX a)).isSome := by
          rw [ht]
          rfl
        have hpage : ∀ b, a ≤ b ∧ b / PGSIZE * PGSIZE < oldsz ↔
            b / PGSIZE = a / PGSIZE ∨ a + PGSIZE ≤ b ∧ b / PGSIZE * PGSIZE < oldsz := by
          intro b
          simp only [PGSIZE]
          omega
        have hnext : (a + PGSIZE) % PGSIZE = 0 := by
          simp only [PGSIZE]
          omega
        have hmore : oldsz ≤ a + PGSIZE + fuel * PGSIZE := by
          simp only [PGSIZE]
          omega
        dsimp only [Option.map_some]
        cases he : d.entry (PDX a, PTX a) with
        | none =>
          refine (ih hnext hmore).post fun x m' hx b hb => ?_
          rw [hx b hb]
          simp only [hpage b]
          by_cases hba : b / PGSIZE = a / PGSIZE
          · have hnone : d.mapped b = none := by
              rw [PageDir.mapped, (place_eq hva hb).2 hba, he]
            rw [hnone, ite_self, ite_self]
          · simp only [hba, false_or]
        | some pte =>
          dsimp only
          split_ifs
          · exact ends_error.2 (tame_panic (by decide) (by decide))
          · refine kfree_tame.bind fun _ m' _ => ?_
            refine (ih hnext hmore).post fun x m' hx b hb => ?_
            rw [hx b hb, PageDir.setEntry_mapped hva hb htab]
            simp only [hpage b]
            by_cases hba : b / PGSIZE = a / PGSIZE
            · simp only [hba, true_or, if_true, ite_self]
            · simp only [hba, false_or, if_false]
    · refine ends_ok.2 fun b hb => ?_
      simp only [PGSIZE]
      rw [if_neg (by omega)]

theorem deallocuvm_mapped (hsz : oldsz ≤ KERNBASE) (hlt : newsz < oldsz) :
    Ends (fun x _ => x.2 = newsz ∧ ∀ b, b < KERNBASE → x.1.mapped b =
      if PGROUNDUP newsz ≤ b ∧ b / PGSIZE * PGSIZE < oldsz then none else d.mapped b) Tame
      (deallocuvm d oldsz newsz m) := by
  simp only [deallocuvm, if_neg (not_le.2 hlt)]
  have ha : PGROUNDUP newsz % PGSIZE = 0 := Nat.mul_mod_left ..
  have hfuel : oldsz ≤ PGROUNDUP newsz + (oldsz / PGSIZE + 1) * PGSIZE := by
    simp only [PGSIZE]
    omega
  exact (deallocLoop_mapped hsz ha hfuel).bind fun x _ hx => ends_ok.2 ⟨rfl, hx⟩

/-- A process gets smaller. -/
theorem PageDir.Maps.shrink (h : d.Maps oldsz) (hsz : oldsz ≤ KERNBASE) (hlt : newsz < oldsz)
    (hd : ∀ b, b < KERNBASE → d₀.mapped b =
      if PGROUNDUP newsz ≤ b ∧ b / PGSIZE * PGSIZE < oldsz then none else d.mapped b) :
    d₀.Maps newsz := by
  intro b hb
  have hold := h b hb
  rw [hd b hb]
  rw [PGROUNDUP_of_le hsz] at hold
  rw [PGROUNDUP_of_le (hlt.le.trans hsz)]
  simp only [PGSIZE]
  split_ifs with hin
  · have : ¬ b < (newsz + 4095) / 4096 * 4096 := not_lt.2 hin.1
    simp only [Option.isSome_none, Bool.false_eq_true, this]
  · rw [hold]
    omega

theorem forM_kfree_tame (l : List Page) : Ends (fun _ _ => True) Tame (l.forM kfree m) :=
  Ends.forM (I := fun _ _ => True) l trivial fun _ _ _ _ => kfree_tame

theorem freevm_tame : Ends (fun _ _ => True) Tame (freevm d m) := by
  refine (deallocuvm_mapped (le_refl _) (by decide)).bind fun x m' _ => ?_
  refine (forM_kfree_tame _).bind fun _ m' _ => ?_
  refine (forM_kfree_tame _).bind fun _ m' _ => ?_
  exact kfree_tame

/-! ### `setupkvm` -/

theorem mapKernel_user {is : List (Fin NUPDE)} :
    Ends (fun x _ => x.1.user = d.user) Tame (mapKernel d is m) := by
  induction is generalizing d m with
  | nil => exact ends_ok.2 rfl
  | cons i is ih =>
    unfold mapKernel
    split_ifs
    · exact ih
    · refine kalloc_tame.bind fun o m' _ => ?_
      cases o with
      | none => exact ends_ok.2 rfl
      | some pgtab => exact ih

theorem setupkvm_mapped :
    Ends (fun o _ => ∀ d, o = some d → d.user = fun _ => none) Tame (setupkvm m) := by
  refine kalloc_tame.bind fun o m' _ => ?_
  cases o with
  | none => exact ends_ok.2 nofun
  | some page =>
    refine mapKernel_user.bind fun x m' hx => ?_
    obtain ⟨d, b⟩ := x
    cases b with
    | true =>
      refine ends_ok.2 ?_
      rintro d ⟨⟩
      exact hx
    | false => exact freevm_tame.bind fun _ m' _ => ends_ok.2 nofun

/-- A new page table maps no user page. -/
theorem PageDir.mapped_of_empty (h : d.user = fun _ => none) (b : ℕ) : d.mapped b = none := by
  rw [mapped, entry, h]
  rfl

theorem PageDir.maps_zero (h : d.user = fun _ => none) : d.Maps 0 := by
  intro b _
  rw [mapped_of_empty h]
  simp [PGROUNDUP_of_le]

/-! ### `allocuvm` -/

/-- The pages from the old size up to `a` have been added. -/
structure Grown (d₀ d : PageDir) (oldsz a : ℕ) : Prop where
  below : ∀ b, b < KERNBASE → b < PGROUNDUP oldsz → d.mapped b = d₀.mapped b
  added : ∀ b, b < KERNBASE → ((d.mapped b).isSome ↔ b < a)

theorem Grown.refl (h : d.Maps sz) : Grown d d sz (PGROUNDUP sz) := ⟨fun _ _ _ => rfl, h⟩

theorem maps_of_added (hsz : sz ≤ KERNBASE) (ha : a % PGSIZE = 0) (hge : sz ≤ a)
    (hle : a ≤ PGROUNDUP sz) (h : ∀ b, b < KERNBASE → ((d.mapped b).isSome ↔ b < a)) :
    d.Maps sz := by
  have hup := PGROUNDUP_of_le hsz
  have haup : PGROUNDUP sz = a := by
    simp only [PGSIZE] at ha
    omega
  intro b hb
  rw [haup]
  exact h b hb

/-- One page more. -/
theorem Grown.page {d' : PageDir} {pte : Pte} (h : Grown d₀ d oldsz a) (ha : a % PGSIZE = 0)
    (hge : PGROUNDUP oldsz ≤ a) (hd : ∀ b, b < KERNBASE → d'.mapped b =
      if b / PGSIZE = a / PGSIZE then some pte else d.mapped b) :
    Grown d₀ d' oldsz (a + PGSIZE) := by
  simp only [PGSIZE] at ha hd ⊢
  refine ⟨fun b hb hlt => ?_, fun b hb => ?_⟩
  · rw [hd b hb, if_neg (by omega)]
    exact h.below b hb hlt
  · rw [hd b hb]
    split_ifs with hpage
    · simp only [Option.isSome_some, true_iff]
      omega
    · rw [h.added b hb]
      omega

/-- Memory has run out: the new pages are unmapped again. -/
theorem Grown.undo (h : Grown d₀ d oldsz a) (h₀ : d₀.Maps oldsz) (hnew : newsz ≤ KERNBASE)
    (ha : a % PGSIZE = 0) (hge : PGROUNDUP oldsz ≤ a) (hold : oldsz ≤ KERNBASE)
    (hlt : a < newsz) : Ends (fun x _ => ∀ b, b < KERNBASE → x.1.mapped b = d₀.mapped b) Tame
      (deallocuvm d newsz oldsz m) := by
  have hup := PGROUNDUP_of_le hold
  refine (deallocuvm_mapped hnew (by omega)).post fun x m' ⟨_, hx⟩ b hb => ?_
  rw [hx b hb]
  by_cases hbelow : b < PGROUNDUP oldsz
  · rw [if_neg fun h => not_lt.2 h.1 hbelow]
    exact h.below b hb hbelow
  · have hnone₀ : d₀.mapped b = none := by
      rw [← Option.not_isSome_iff_eq_none, h₀ b hb]
      exact hbelow
    rw [hnone₀]
    split_ifs with hin
    · rfl
    · rw [← Option.not_isSome_iff_eq_none, h.added b hb]
      simp only [PGSIZE] at hin ha
      omega

theorem allocLoop_mapped (h₀ : d₀.Maps oldsz) (hold : oldsz ≤ KERNBASE) (hnew : newsz < KERNBASE)
    (ha : a % PGSIZE = 0) (hge : PGROUNDUP oldsz ≤ a) (hle : a ≤ PGROUNDUP newsz)
    (hfuel : newsz ≤ a + fuel * PGSIZE) (hd : Grown d₀ d oldsz a) :
    Ends (fun x _ => x.2 = 0 ∧ (∀ b, b < KERNBASE → x.1.mapped b = d₀.mapped b) ∨
      x.2 = newsz ∧ x.1.Maps newsz) Tame (allocLoop fuel d a oldsz newsz m) := by
  induction fuel generalizing d a m with
  | zero =>
    refine ends_ok.2 (Or.inr ⟨rfl, ?_⟩)
    exact maps_of_added hnew.le ha (by omega) hle hd.added
  | succ fuel ih =>
    unfold allocLoop
    split_ifs with hlt
    · refine kalloc_tame.bind fun o m' _ => ?_
      cases o with
      | none =>
        refine (hd.undo h₀ hnew.le ha hge hold hlt).bind fun x m' hx => ?_
        exact ends_ok.2 (Or.inl ⟨rfl, hx⟩)
      | some mem =>
        have hva : a < KERNBASE := hlt.trans hnew
        refine (mappages_mapped hva).bind fun x m' hx => ?_
        obtain ⟨d', b⟩ := x
        cases b with
        | true =>
          simp only [true_and] at hx
          have hup := PGROUNDUP_of_le hnew.le
          refine ih ?_ ?_ ?_ ?_ (hd.page ha hge hx)
          · simp only [PGSIZE] at ha ⊢
            omega
          · exact hge.trans (Nat.le_add_right a PGSIZE)
          · simp only [PGSIZE] at ha ⊢
            omega
          · simp only [PGSIZE] at hfuel ⊢
            omega
        | false =>
          simp only [Bool.false_eq_true, false_and, if_false] at hx
          have hd' : Grown d₀ d' oldsz a := by
            refine ⟨fun b hb hlt => ?_, fun b hb => ?_⟩
            · rw [hx b hb]
              exact hd.below b hb hlt
            · rw [hx b hb]
              exact hd.added b hb
          refine (hd'.undo h₀ hnew.le ha hge hold hlt).bind fun x m' hx => ?_
          exact kfree_tame.bind fun _ m' _ => ends_ok.2 (Or.inl ⟨rfl, hx⟩)
    · refine ends_ok.2 (Or.inr ⟨rfl, ?_⟩)
      exact maps_of_added hnew.le ha (not_lt.1 hlt) hle hd.added

/-- `allocuvm` adds the pages up to the new size or changes nothing. -/
theorem allocuvm_mapped (h : d.Maps oldsz) (hold : oldsz ≤ KERNBASE) :
    Ends (fun x _ => x.2 = 0 ∧ (∀ b, b < KERNBASE → x.1.mapped b = d.mapped b) ∨
      x.1.Maps x.2 ∧ (x.2 = newsz ∧ oldsz ≤ newsz ∧ newsz < KERNBASE ∨
        x.2 = oldsz ∧ newsz < oldsz)) Tame (allocuvm d oldsz newsz m) := by
  unfold allocuvm
  split_ifs with hbig hsmall
  · exact ends_ok.2 (Or.inl ⟨rfl, fun _ _ => rfl⟩)
  · exact ends_ok.2 (Or.inr ⟨h, Or.inr ⟨rfl, hsmall⟩⟩)
  · have hnew := not_le.1 hbig
    have hup := PGROUNDUP_of_le hold
    have hup' := PGROUNDUP_of_le hnew.le
    refine (allocLoop_mapped h hold hnew ?_ (le_refl _) ?_ ?_ (.refl h)).post fun x _ hx => ?_
    · exact Nat.mul_mod_left ..
    · omega
    · simp only [PGSIZE]
      omega
    · refine hx.imp_right fun ⟨hsz, hmaps⟩ => ⟨?_, Or.inl ⟨hsz, not_lt.1 hsmall, hnew⟩⟩
      rw [hsz]
      exact hmaps

/-! ### `copyuvm` -/

theorem copyLoop_mapped {pgdir : PageDir} (h : pgdir.Maps sz) (hsz : sz < KERNBASE)
    (ha : a % PGSIZE = 0) (hle : a ≤ PGROUNDUP sz) (hfuel : sz ≤ a + fuel * PGSIZE)
    (hd : ∀ b, b < KERNBASE → ((d.mapped b).isSome ↔ b < a)) :
    Ends (fun o _ => ∀ d, o = some d → d.Maps sz) Tame (copyLoop pgdir fuel d a sz m) := by
  have hup := PGROUNDUP_of_le hsz.le
  induction fuel generalizing d a m with
  | zero =>
    refine ends_ok.2 ?_
    rintro d ⟨⟩
    exact maps_of_added hsz.le ha (by omega) hle hd
  | succ fuel ih =>
    unfold copyLoop
    split_ifs with hlt
    · have hva : a < KERNBASE := hlt.trans hsz
      -- the page is mapped in the parent
      have hmapped : (pgdir.mapped a).isSome := (h a hva).2 (by omega)
      obtain ⟨pte, hpte⟩ := Option.isSome_iff_exists.1 hmapped
      obtain ⟨t, ht, -⟩ := Option.bind_eq_some_iff.1 hpte
      dsimp only at ht
      rw [run_bind_ok (walkpgdir_look hva), ht]
      have hentry : pgdir.entry (PDX a, PTX a) = some pte := hpte
      dsimp only [Option.map_some]
      rw [hentry]
      refine kalloc_tame.bind fun o m' _ => ?_
      cases o with
      | none => exact freevm_tame.bind fun _ m' _ => ends_ok.2 nofun
      | some mem =>
        refine (mappages_mapped hva).bind fun x m' hx => ?_
        obtain ⟨d', b⟩ := x
        cases b with
        | true =>
          simp only [true_and] at hx
          have hgrown : Grown d d 0 a := ⟨fun _ _ _ => rfl, hd⟩
          have hzero : PGROUNDUP 0 ≤ a := by
            rw [PGROUNDUP_of_le (by decide)]
            exact Nat.zero_le a
          refine ih ?_ ?_ ?_ (hgrown.page ha hzero hx).added
          · simp only [PGSIZE] at ha ⊢
            omega
          · simp only [PGSIZE] at ha ⊢
            omega
          · simp only [PGSIZE] at hfuel ⊢
            omega
        | false =>
          refine kfree_tame.bind fun _ m' _ => ?_
          exact freevm_tame.bind fun _ m' _ => ends_ok.2 nofun
    · refine ends_ok.2 ?_
      rintro d ⟨⟩
      exact maps_of_added hsz.le ha (not_lt.1 hlt) hle hd

/-- A copy maps what the original maps. -/
theorem copyuvm_mapped (h : d.Maps sz) (hsz : sz < KERNBASE) :
    Ends (fun o _ => ∀ d', o = some d' → d'.Maps sz) Tame (copyuvm d sz m) := by
  refine setupkvm_mapped.bind fun o m' ho => ?_
  cases o with
  | none => exact ends_ok.2 nofun
  | some d' =>
    refine copyLoop_mapped h hsz (by decide) (Nat.zero_le _) ?_ fun b hb => ?_
    · simp only [PGSIZE]
      omega
    · rw [PageDir.mapped_of_empty (ho d' rfl)]
      simp

/-! ### `growproc` -/

theorem PageDir.Maps.congr {d' : PageDir} (h : d.Maps sz)
    (hd : ∀ b, b < KERNBASE → d'.mapped b = d.mapped b) : d'.Maps sz := by
  intro b hb
  rw [hd b hb]
  exact h b hb

theorem PageDir.Maps.zero_mapped (h : d.Maps 0) (hb : b < KERNBASE) : d.mapped b = none := by
  rw [← Option.not_isSome_iff_eq_none, h b hb, PGROUNDUP_of_le (by decide)]
  exact Nat.not_lt_zero b

/-- What `growproc` leaves: the old pages when it fails, else the pages of the new size. -/
def Resized (d : PageDir) (x : PageDir × Option ℕ) : Prop :=
  (x.2 = none → ∀ b, b < KERNBASE → x.1.mapped b = d.mapped b) ∧
    ∀ sz, x.2 = some sz → x.1.Maps sz ∧ sz < KERNBASE

/-- `growproc` is right unless a negative `n` takes the size to 0: `deallocuvm` then says 0,
which is taken for an error after the pages are gone. -/
theorem growproc_mapped (h : d.Maps sz) (hsz : sz < KERNBASE) (hn : n < 0 → addSize sz n ≠ 0) :
    Ends (fun x _ => Resized d x) Tame (growproc d sz n m) := by
  unfold growproc
  split_ifs with hpos hneg
  · refine (allocuvm_mapped h hsz.le).bind fun x m' hx => ends_ok.2 ?_
    obtain ⟨d', sz'⟩ := x
    constructor
    · intro hzero b hb
      dsimp only at hzero hx ⊢
      split_ifs at hzero with hz
      subst hz
      obtain ⟨-, hsame⟩ | ⟨hmaps, ⟨hnew, hle, -⟩ | ⟨hold, hlt⟩⟩ := hx
      · exact hsame b hb
      · -- the new size is the old size 0
        have hz : sz = 0 := by omega
        subst hz
        rw [hmaps.zero_mapped hb, h.zero_mapped hb]
      · omega
    · intro sz₁ hsome
      dsimp only at hsome hx ⊢
      split_ifs at hsome with hz
      obtain rfl := Option.some.inj hsome
      obtain ⟨hz', -⟩ | ⟨hmaps, ⟨rfl, -, hlt⟩ | ⟨rfl, -⟩⟩ := hx
      · exact absurd hz' hz
      · exact ⟨hmaps, hlt⟩
      · exact ⟨hmaps, hsz⟩
  · by_cases hlt : addSize sz n < sz
    · refine (deallocuvm_mapped hsz.le hlt).bind fun x m' hx => ends_ok.2 ?_
      obtain ⟨d', sz'⟩ := x
      obtain ⟨rfl, hd⟩ := hx
      simp only [hn hneg, if_false]
      refine ⟨nofun, ?_⟩
      rintro sz₁ ⟨⟩
      exact ⟨h.shrink hsz.le hlt hd, hlt.trans hsz⟩
    · have hsame : deallocuvm d sz (addSize sz n) m = .ok (d, sz) m := by
        simp only [deallocuvm, if_pos (not_lt.1 hlt)]
        rfl
      rw [run_bind_ok hsame]
      refine ends_ok.2 ⟨fun _ _ _ => rfl, fun sz₁ hsome => ?_⟩
      dsimp only at hsome
      split_ifs at hsome
      obtain rfl := Option.some.inj hsome
      exact ⟨h, hsz⟩
  · refine ends_ok.2 ⟨nofun, ?_⟩
    rintro sz₁ ⟨⟩
    exact ⟨h, hsz⟩

/-- `growproc` stops for no reason of `copyuvm`, whatever the new size is. -/
theorem growproc_tame (h : d.Maps sz) (hsz : sz < KERNBASE) :
    Ends (fun _ _ => True) Tame (growproc d sz n m) := by
  by_cases hn : n < 0 → addSize sz n ≠ 0
  · exact (growproc_mapped h hsz hn).post fun _ _ _ => trivial
  · obtain ⟨hneg, hzero⟩ := Classical.not_imp.1 hn
    rw [not_not] at hzero
    unfold growproc
    rw [if_neg hneg.not_gt, if_pos hneg, hzero]
    by_cases hlt : 0 < sz
    · exact (deallocuvm_mapped hsz.le hlt).bind fun _ _ _ => ends_ok.2 trivial
    · have hsame : deallocuvm d sz 0 m = .ok (d, sz) m := by
        simp only [deallocuvm, if_pos (not_lt.1 hlt)]
        rfl
      rw [run_bind_ok hsame]
      exact ends_ok.2 trivial

/-! ### `exec` -/

theorem loadLoop_tame {addr i : ℕ} {loaded : ℕ → Bool} :
    Ends (fun _ _ => True) Tame (loadLoop d addr sz loaded fuel i m) := by
  induction fuel generalizing i m with
  | zero => exact ends_ok.2 trivial
  | succ fuel ih =>
    unfold loadLoop
    by_cases hi : i < sz
    · rw [if_pos hi]
      have hwalk : Ends (fun _ _ => True) Tame (walkpgdir d (addr + i) false m) := by
        by_cases hva : addr + i < KERNBASE
        · rw [walkpgdir_look hva]
          exact ends_ok.2 trivial
        · simp only [walkpgdir, if_pos (not_lt.1 hva)]
          exact ends_error.2 tame_disabled
      refine hwalk.bind fun x m' _ => ?_
      obtain ⟨d', o⟩ := x
      cases o with
      | none => exact ends_error.2 (tame_panic (by decide) (by decide))
      | some l =>
        dsimp only
        split_ifs
        · exact ih
        · exact ends_ok.2 trivial
    · rw [if_neg hi]
      exact ends_ok.2 trivial

theorem loaduvm_tame {addr : ℕ} {loaded : ℕ → Bool} :
    Ends (fun _ _ => True) Tame (loaduvm d addr sz loaded m) := by
  unfold loaduvm
  split_ifs
  · exact ends_error.2 (tame_panic (by decide) (by decide))
  · exact loadLoop_tame

theorem loadSegments_mapped {segments : List Segment} (h : d.Maps sz) (hsz : sz < KERNBASE) :
    Ends (fun x _ => ∀ sz', x.2 = some sz' → x.1.Maps sz' ∧ sz' < KERNBASE) Tame
      (loadSegments d sz segments m) := by
  induction segments generalizing d sz m with
  | nil =>
    refine ends_ok.2 ?_
    rintro sz' ⟨⟩
    exact ⟨h, hsz⟩
  | cons seg rest ih =>
    unfold loadSegments
    cases seg.hdr with
    | none => exact ends_ok.2 nofun
    | some ph =>
      by_cases hload : ph.load = false
      · simp only [if_pos hload]
        exact ih h hsz
      · by_cases hbad : ph.memsz < ph.filesz ∨ (ph.vaddr + ph.memsz) % UINT < ph.vaddr
        · obtain hsmall | hwrap := hbad
          · simp only [if_neg hload, if_pos hsmall]
            exact ends_ok.2 nofun
          · simp only [if_neg hload, if_pos hwrap, ite_self]
            exact ends_ok.2 nofun
        · obtain ⟨hsmall, hwrap⟩ := not_or.1 hbad
          simp only [if_neg hload, if_neg hsmall, if_neg hwrap]
          refine (allocuvm_mapped h hsz.le).bind fun x m' hx => ?_
          obtain ⟨d', sz'⟩ := x
          dsimp only at hx ⊢
          split_ifs with hz
          · exact ends_ok.2 nofun
          · exact ends_ok.2 nofun
          · refine loaduvm_tame.bind fun loaded m' _ => ?_
            cases loaded with
            | false => exact ends_ok.2 nofun
            | true =>
              obtain ⟨hz', -⟩ | ⟨hmaps, ⟨rfl, -, hlt⟩ | ⟨rfl, -⟩⟩ := hx
              · exact absurd hz' hz
              · exact ih hmaps hlt
              · exact ih hmaps hsz

theorem clearpteu_mapped {uva : ℕ} : Ends (fun x _ => ∀ b, b < KERNBASE →
    (x.mapped b).isSome = (d.mapped b).isSome) Tame (clearpteu d uva m) := by
  by_cases hva : uva < KERNBASE
  · unfold clearpteu
    rw [run_bind_ok (walkpgdir_look hva)]
    cases ht : d.user (PDX uva) with
    | none => exact ends_error.2 (tame_panic (by decide) (by decide))
    | some t =>
      refine ends_ok.2 fun b hb => ?_
      rw [PageDir.setEntry_mapped hva hb (by rw [ht]; rfl)]
      split_ifs with hpage
      · have hsame : d.mapped b = d.entry (PDX uva, PTX uva) := by
          rw [PageDir.mapped, (place_eq hva hb).2 hpage]
        rw [hsame, Option.isSome_map]
      · rfl
  · simp only [clearpteu, walkpgdir, if_pos (not_lt.1 hva)]
    exact ends_error.2 tame_disabled

theorem PGROUNDUP_self (h : sz ≤ KERNBASE) : PGROUNDUP (PGROUNDUP sz) = PGROUNDUP sz := by
  have hup := PGROUNDUP_of_le h
  have hle : PGROUNDUP sz ≤ KERNBASE := by
    simp only [KERNBASE] at h ⊢
    omega
  rw [PGROUNDUP_of_le hle]
  omega

theorem exec_mapped {prog : Program} : Ends (fun o _ => ∀ x, o = some x →
    x.1.Maps x.2 ∧ x.2 < KERNBASE) Tame (exec d prog m) := by
  unfold exec
  cases prog.segments with
  | none => exact ends_ok.2 nofun
  | some segments =>
    refine setupkvm_mapped.bind fun o m' ho => ?_
    cases o with
    | none => exact ends_ok.2 nofun
    | some d₁ =>
      refine (loadSegments_mapped (PageDir.maps_zero (ho d₁ rfl)) (by decide)).bind
        fun x m' hx => ?_
      obtain ⟨d₂, o⟩ := x
      cases o with
      | none => exact freevm_tame.bind fun _ m' _ => ends_ok.2 nofun
      | some sz =>
        obtain ⟨hmaps, hsz⟩ := hx sz rfl
        have hup := PGROUNDUP_of_le hsz.le
        have hle : PGROUNDUP sz ≤ KERNBASE := by
          simp only [KERNBASE] at hsz ⊢
          omega
        have hround : d₂.Maps (PGROUNDUP sz) := by
          intro b hb
          rw [PGROUNDUP_self hsz.le]
          exact hmaps b hb
        refine (allocuvm_mapped hround hle).bind fun x m' hx => ?_
        obtain ⟨d₃, sz'⟩ := x
        dsimp only at hx ⊢
        by_cases hz : sz' = 0
        · rw [if_pos hz]
          exact freevm_tame.bind fun _ m' _ => ends_ok.2 nofun
        · rw [if_neg hz]
          have hnew : d₃.Maps sz' ∧ sz' < KERNBASE := by
            obtain ⟨hz', -⟩ | ⟨hmaps, ⟨hk, -, hlt⟩ | ⟨hk, hlt⟩⟩ := hx
            · exact absurd hz' hz
            · refine ⟨hmaps, ?_⟩
              rw [hk]
              exact hlt
            · -- two pages more cannot wrap around
              simp only [KERNBASE] at hle
              simp only [PGSIZE, UINT] at hlt
              omega
          refine clearpteu_mapped.bind fun d₄ m' hd => ?_
          split_ifs
          · refine freevm_tame.bind fun _ m' _ => ends_ok.2 ?_
            rintro x ⟨⟩
            refine ⟨fun b hb => ?_, hnew.2⟩
            rw [hd b hb]
            exact hnew.1 b hb
          · exact freevm_tame.bind fun _ m' _ => ends_ok.2 nofun

end Xv6Container.Memory
