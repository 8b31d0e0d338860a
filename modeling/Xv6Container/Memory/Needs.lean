import Xv6Container.Memory.Mapping

/-! How many pages `copyuvm` takes: the page directory, the page tables of the kernel part, the
pages of the process and their page tables. It returns 0 exactly when the free list is shorter. -/

namespace Xv6Container.Memory

open Lib

variable {d : PageDir} {m m' m₁ : Kmem} {b : Bool} {va sz fuel c j k : ℕ}

/-! ### Pages taken -/

/-- The number of pages that are free. -/
def Kmem.free (m : Kmem) : ℕ := m.freelist.length

/-- A program has taken `k` pages, or it has failed where there were fewer. -/
def Takes (k : ℕ) (m : Kmem) (b : Bool) (m' : Kmem) : Prop :=
  if b then m.free = m'.free + k else m.free < k

theorem Takes.seq (h : Takes j m true m₁) (h' : Takes k m₁ b m') : Takes (j + k) m b m' := by
  unfold Takes at h h' ⊢
  rw [if_pos rfl] at h
  split_ifs at h' ⊢
  · omega
  · omega

/-- A failure stays one when more pages were wanted. -/
theorem Takes.more (h : Takes j m false m₁) (hjk : j ≤ k) : Takes k m false m' := by
  unfold Takes at h ⊢
  rw [if_neg Bool.false_ne_true] at h ⊢
  omega

theorem takes_zero : Takes 0 m true m := rfl

theorem kalloc_takes : Ends (fun o m' => Takes 1 m o.isSome m') (fun _ => True) (kalloc m) := by
  simp only [kalloc, run_get_bind]
  cases hlist : m.freelist with
  | nil =>
    refine ends_ok.2 ?_
    show m.freelist.length < 1
    rw [hlist]
    exact Nat.zero_lt_one
  | cons r next =>
    refine ends_ok.2 ?_
    show m.freelist.length = next.length + 1
    rw [hlist, List.length_cons]

/-- The clean-up after a failure may do what it likes with the free list. -/
theorem takes_failed {α : Type} {x : Run α} (h : Takes k m false m₁) :
    Ends (fun _ m' => Takes k m false m') (fun _ => True) (x m₁) := by
  cases x m₁ with
  | ok a m' => exact ends_ok.2 (h.more (le_refl k))
  | error r m' => exact ends_error.2 trivial

/-! ### The kernel part -/

theorem mapKernel_takes {is : List (Fin NUPDE)} (hnodup : is.Nodup)
    (hnone : ∀ i ∈ is, d.kernel i = none) :
    Ends (fun x m' => Takes is.length m x.2 m' ∧ x.1.user = d.user) (fun _ => True)
      (mapKernel d is m) := by
  induction is generalizing d m with
  | nil => exact ends_ok.2 ⟨takes_zero, rfl⟩
  | cons i is ih =>
    obtain ⟨hi, hnodup⟩ := List.nodup_cons.1 hnodup
    unfold mapKernel
    rw [hnone i List.mem_cons_self]
    refine kalloc_takes.bind fun o m₁ h₁ => ?_
    rw [List.length_cons, Nat.add_comm]
    cases o with
    | none => exact ends_ok.2 ⟨h₁.more (Nat.le_add_right 1 _), rfl⟩
    | some pgtab =>
      have hfree : ∀ j ∈ is, Function.update d.kernel i (some pgtab) j = none := by
        intro j hj
        have hji : j ≠ i := by
          rintro rfl
          exact hi hj
        rw [Function.update_of_ne hji]
        exact hnone j (List.mem_cons_of_mem i hj)
      refine (ih (d := { d with kernel := Function.update d.kernel i (some pgtab) }) hnodup hfree).post ?_
      rintro x m₂ ⟨h₂, huser⟩
      exact ⟨h₁.seq h₂, huser⟩

theorem setupkvm_takes : Ends (fun o m' => Takes (1 + kmap.length) m o.isSome m' ∧
    ∀ d, o = some d → d.user = fun _ => none) (fun _ => True) (setupkvm m) := by
  refine kalloc_takes.bind fun o m₁ h₁ => ?_
  cases o with
  | none => exact ends_ok.2 ⟨h₁.more (Nat.le_add_right 1 _), nofun⟩
  | some page =>
    have hnodup : kmap.Nodup := (List.nodup_finRange NUPDE).filter _
    refine (mapKernel_takes hnodup fun _ _ => rfl).bind fun x m₂ ⟨h₂, huser⟩ => ?_
    obtain ⟨d, b⟩ := x
    cases b with
    | true =>
      refine ends_ok.2 ⟨h₁.seq h₂, ?_⟩
      rintro _ ⟨⟩
      exact huser
    | false => exact (takes_failed (h₁.seq h₂)).bind fun _ m₃ h₃ => ends_ok.2 ⟨h₃, nofun⟩

/-! ### The pages of the process -/

theorem walkpgdir_takes (h : va < KERNBASE) :
    Ends (fun x m' => Takes (if (d.user (PDX va)).isSome then 0 else 1) m x.2.isSome m' ∧
      (x.2.isSome → ∀ i, (x.1.user i).isSome ↔ i = PDX va ∨ (d.user i).isSome)) (fun _ => True)
      (walkpgdir d va true m) := by
  simp only [walkpgdir, if_neg (not_le.2 h)]
  cases ht : d.user (PDX va) with
  | some t =>
    refine ends_ok.2 ⟨takes_zero, fun _ i => ⟨.inr, ?_⟩⟩
    rintro (rfl | hi)
    · show (d.user (PDX va)).isSome
      rw [ht]
      rfl
    · exact hi
  | none =>
    refine kalloc_takes.bind fun o m₁ h₁ => ?_
    cases o with
    | none => exact ends_ok.2 ⟨h₁, by rintro ⟨⟩⟩
    | some pgtab =>
      refine ends_ok.2 ⟨h₁, fun _ i => ?_⟩
      show (Function.update d.user (PDX va) (some _) i).isSome ↔ _
      rw [Function.update_apply]
      split_ifs with hi
      · exact ⟨fun _ => .inl hi, fun _ => rfl⟩
      · exact ⟨.inr, fun h => h.resolve_left hi⟩

theorem PageDir.setEntry_isSome (l : Fin NUPDE × Fin NPTENTRIES) (x : Option Pte) (i : Fin NUPDE) :
    ((d.setEntry l x).user i).isSome = (d.user i).isSome := by
  show (Function.update d.user l.1 ((d.user l.1).map _) i).isSome = _
  rw [Function.update_apply]
  split_ifs with hi
  · rw [Option.isSome_map, hi]
  · rfl

theorem mappages_takes {pte : Pte} (h : va < KERNBASE) :
    Ends (fun x m' => Takes (if (d.user (PDX va)).isSome then 0 else 1) m x.2 m' ∧
      (x.2 = true → ∀ i, (x.1.user i).isSome ↔ i = PDX va ∨ (d.user i).isSome)) (fun _ => True)
      (mappages d va pte m) := by
  refine (walkpgdir_takes h).bind fun x m' ⟨hx, huser⟩ => ?_
  obtain ⟨d', o⟩ := x
  cases o with
  | none => exact ends_ok.2 ⟨hx, nofun⟩
  | some l =>
    dsimp only
    by_cases hentry : (d'.entry l).isSome
    · rw [if_pos hentry]
      exact ends_error.2 trivial
    · rw [if_neg hentry]
      refine ends_ok.2 ⟨hx, fun _ i => ?_⟩
      rw [PageDir.setEntry_isSome]
      exact huser rfl i

/-- The page tables for `c` pages from address 0 on. -/
def tables (c : ℕ) : ℕ := (c + (NPTENTRIES - 1)) / NPTENTRIES

/-- The number of pages below a size. -/
def pages (sz : ℕ) : ℕ := (sz + (PGSIZE - 1)) / PGSIZE

/-- What is left to take after `c` pages. -/
def rest (sz c : ℕ) : ℕ := pages sz - c + (tables (pages sz) - tables c)

theorem pages_lt (h : c * PGSIZE < sz) : c < pages sz := by
  simp only [pages, PGSIZE] at h ⊢
  omega

theorem rest_done (hc : c ≤ pages sz) (h : ¬ c * PGSIZE < sz) : rest sz c = 0 := by
  have hpages : pages sz = c := by
    simp only [pages, PGSIZE] at hc h ⊢
    omega
  rw [rest, hpages]
  omega

/-- The next page, with a page table where one begins. -/
theorem rest_next (h : c < pages sz) :
    rest sz c = 1 + (if c / NPTENTRIES < tables c then 0 else 1) + rest sz (c + 1) := by
  by_cases htab : c / NPTENTRIES < tables c
  · rw [if_pos htab]
    simp only [rest, tables, NPTENTRIES] at htab ⊢
    omega
  · rw [if_neg htab]
    simp only [rest, tables, NPTENTRIES] at htab ⊢
    omega

theorem copyLoop_takes {pgdir : PageDir} (hc : c ≤ pages sz) (hfuel : sz ≤ (c + fuel) * PGSIZE)
    (hd : ∀ i, (d.user i).isSome ↔ i.val < tables c) :
    Ends (fun o m' => Takes (rest sz c) m o.isSome m') (fun _ => True)
      (copyLoop pgdir fuel d (c * PGSIZE) sz m) := by
  induction fuel generalizing d c m with
  | zero =>
    refine ends_ok.2 ?_
    rw [rest_done hc (not_lt.2 hfuel)]
    exact takes_zero
  | succ fuel ih =>
    unfold copyLoop
    by_cases hi : c * PGSIZE < sz
    · rw [if_pos hi]
      by_cases hva : c * PGSIZE < KERNBASE
      · rw [run_bind_ok (walkpgdir_look hva)]
        cases pgdir.user (PDX (c * PGSIZE)) with
        | none => exact ends_error.2 trivial
        | some t =>
          dsimp only [Option.map_some]
          cases pgdir.entry (PDX (c * PGSIZE), PTX (c * PGSIZE)) with
          | none => exact ends_error.2 trivial
          | some pte =>
            have hlt := pages_lt hi
            have hnext := rest_next hlt
            have hplace : (PDX (c * PGSIZE)).val = c / NPTENTRIES := by
              simp only [PDX, PGSIZE, NUPDE, NPTENTRIES, KERNBASE] at hva ⊢
              omega
            refine kalloc_takes.bind fun o m₁ h₁ => ?_
            cases o with
            | none =>
              have hfail : Takes (rest sz c) m false m₁ := h₁.more (by omega)
              exact (takes_failed hfail).bind fun _ m₂ h₂ => ends_ok.2 h₂
            | some mem =>
              refine (mappages_takes hva).bind ?_
              rintro x m₂ ⟨h₂, huser⟩
              obtain ⟨d', b⟩ := x
              have h₃ := h₁.seq h₂
              simp only [hd, hplace] at h₃ huser
              cases b with
              | true =>
                have hsucc : c * PGSIZE + PGSIZE = (c + 1) * PGSIZE := (Nat.succ_mul c PGSIZE).symm
                dsimp only
                rw [hsucc, hnext]
                refine (ih (c := c + 1) hlt ?_ fun i => ?_).post fun o m₃ h₄ => h₃.seq h₄
                · rwa [Nat.add_right_comm, Nat.add_assoc]
                · rw [huser rfl i, Fin.ext_iff, hplace]
                  simp only [tables, NPTENTRIES]
                  omega
              | false =>
                have hfail : Takes (rest sz c) m false m₂ := h₃.more (by omega)
                refine (takes_failed hfail).bind fun _ m₃ h₄ => ?_
                exact (takes_failed h₄).bind fun _ m₄ h₅ => ends_ok.2 h₅
      · have hthrow : walkpgdir pgdir (c * PGSIZE) false m = .error .disabled m := by
          simp only [walkpgdir, if_pos (not_lt.1 hva)]
          rfl
        rw [run_bind_error hthrow]
        exact ends_error.2 trivial
    · rw [if_neg hi, rest_done hc hi]
      exact ends_ok.2 takes_zero

/-- The pages of a copy. -/
def copyPages (sz : ℕ) : ℕ := 1 + kmap.length + (pages sz + tables (pages sz))

theorem copyPages_pos (sz : ℕ) : 0 < copyPages sz := by
  unfold copyPages
  omega

/-- `copyuvm` fails just when there are too few pages. -/
theorem copyuvm_takes :
    Ends (fun o m' => Takes (copyPages sz) m o.isSome m') (fun _ => True) (copyuvm d sz m) := by
  refine setupkvm_takes.bind fun o m₁ ⟨h₁, huser⟩ => ?_
  cases o with
  | none => exact ends_ok.2 (h₁.more (Nat.le_add_right _ _))
  | some d' =>
    have hfuel : sz ≤ (0 + (sz / PGSIZE + 1)) * PGSIZE := by
      simp only [PGSIZE]
      omega
    have hempty : ∀ i, (d'.user i).isSome ↔ i.val < tables 0 := by
      intro i
      rw [huser d' rfl]
      simp [tables, NPTENTRIES]
    refine Ends.post ?_ fun o m₂ h₂ => h₁.seq h₂
    show Ends _ _ (copyLoop d _ d' 0 sz m₁)
    rw [← Nat.zero_mul PGSIZE]
    exact copyLoop_takes (Nat.zero_le _) hfuel hempty

end Xv6Container.Memory
