import Xv6Container.Paging.Peek

/-! `copyout` into an address space. A range within one page that the user may reach is written; a range
that runs into a page out of the user's reach is refused there, with what comes before it written. -/

namespace Xv6Container.Paging

open Lib
open Memory (PGSIZE KERNBASE PHYSTOP DEVSPACE UINT NPTENTRIES V2P PGROUNDUP)
open Memory.Copyout (PTE_P PTE_U flag PTE_ADDR P2V memmove)

variable {pgdir n g p x va buf len off fuel : ℕ} {q : ℕ → UInt8} {s s' : Kmem} {k : Kernel} {L : List ℕ}

theorem uva2ka_user (hn : n < NPAGES) (hx : mapping s.mem pgdir n = some x)
    (hu : flag x PTE_U = true) : uva2ka pgdir (n * PGSIZE) s = .ok (P2V (PTE_ADDR x)) s := by
  obtain ⟨hpte, hp⟩ := mapping_eq_some.1 hx
  obtain ⟨t, ht, hword⟩ := Option.map_eq_some_iff.1 hpte
  rw [uva2ka, run_bind_ok (walk_some false hn ht)]
  dsimp only
  rw [run_load_bind, hword, if_neg (by rw [hp]; decide), if_neg (by rw [hu]; decide)]
  rfl

theorem uva2ka_kernel (hn : n < NPAGES) (hx : mapping s.mem pgdir n = some x)
    (hu : flag x PTE_U = false) : uva2ka pgdir (n * PGSIZE) s = .ok 0 s := by
  obtain ⟨hpte, hp⟩ := mapping_eq_some.1 hx
  obtain ⟨t, ht, hword⟩ := Option.map_eq_some_iff.1 hpte
  rw [uva2ka, run_bind_ok (walk_some false hn ht)]
  dsimp only
  rw [run_load_bind, hword, if_neg (by rw [hp]; decide), if_pos hu]
  rfl

theorem PGROUNDDOWN_page (hva : va / PGSIZE = n) : PGROUNDDOWN va = n * PGSIZE := by
  rw [PGROUNDDOWN, hva]

/-- The first page is out of reach. -/
theorem copyoutLoop_refuses (hn : n < NPAGES) (hx : mapping s.mem pgdir n = some x)
    (hu : flag x PTE_U = false) (hva : va / PGSIZE = n) (hlen : 0 < len) :
    copyoutLoop pgdir q (fuel + 1) va buf len s = .ok false s := by
  rw [copyoutLoop, if_pos hlen]
  dsimp only
  rw [PGROUNDDOWN_page hva, run_bind_ok (uva2ka_kernel hn hx hu), if_pos rfl]
  rfl

/-- A pass over a page within reach. -/
theorem copyoutLoop_pass (hn : n < NPAGES) (hx : mapping s.mem pgdir n = some x)
    (hu : flag x PTE_U = true) (hp : P2V (PTE_ADDR x) = p) (hpos : 0 < p) (hoff : off < PGSIZE)
    (hva : va = n * PGSIZE + off) (hlen : 0 < len) :
    copyoutLoop pgdir q (fuel + 1) va buf len s =
      copyoutLoop pgdir q fuel ((n * PGSIZE + PGSIZE) % UINT) (buf + min (PGSIZE - off) len)
        (len - min (PGSIZE - off) len)
        { s with mem := memmove s.mem (p + off) q buf (min (PGSIZE - off) len) } := by
  have hpage : va / PGSIZE = n := by
    dsimp only [PGSIZE] at *
    omega
  have hdist : n * PGSIZE + off - n * PGSIZE = off := Nat.add_sub_cancel_left ..
  rw [copyoutLoop, if_pos hlen]
  dsimp only
  rw [PGROUNDDOWN_page hpage, run_bind_ok (uva2ka_user hn hx hu), hp, if_neg hpos.ne', hva, hdist,
    run_modify_bind]

theorem userPage_pos (h : Space k s pgdir L) (hn : n < NUPAGES) (hp : userPage s.mem pgdir n = some p) :
    0 < p := by
  have hrange := (h.owns.valid p (h.owns.user_mem (userPage_mem hn hp))).range.1
  omega

/-- A range within one page. -/
theorem copyout_page (h : Space k s pgdir L) (hn : n < NUPAGES) (hx : mapping s.mem pgdir n = some x)
    (hu : flag x PTE_U = true) (hlen : 0 < len) (hfit : off + len ≤ PGSIZE) :
    ∃ s', copyout pgdir (n * PGSIZE + off) q len s = .ok true s' ∧ Space k s' pgdir L ∧
      Frame L s.mem s'.mem ∧ Written pgdir (n * PGSIZE + off) q 0 len s.mem s'.mem := by
  have hp : userPage s.mem pgdir n = some (P2V (PTE_ADDR x)) := by
    rw [userPage, hx]
    rfl
  have hmin : min (PGSIZE - off) len = len := by omega
  obtain ⟨fuel, rfl⟩ : ∃ f, len = f + 1 := ⟨len - 1, by omega⟩
  obtain ⟨hspace, hframe⟩ : Space k { s with mem := memmove s.mem (P2V (PTE_ADDR x) + off) q 0 (fuel + 1) }
      pgdir L ∧ Frame L s.mem (memmove s.mem (P2V (PTE_ADDR x) + off) q 0 (fuel + 1)) :=
    h.write hn hp hfit
  refine ⟨_, ?_, hspace, hframe, h.owns.write hn hp hfit⟩
  rw [copyout, copyoutLoop_pass (hn.trans (by decide)) hx hu rfl (userPage_pos h hn hp) (by omega) rfl hlen,
    hmin, Nat.sub_self, copyoutLoop, if_neg (Nat.lt_irrefl 0)]
  rfl

/-- A range that runs into the page `g`, which is out of reach. -/
theorem copyoutLoop_stops (h : Space k s pgdir L) (hg : g < NUPAGES)
    (hguard : ∃ x, mapping s.mem pgdir g = some x ∧ flag x PTE_U = false)
    (hlow : ∀ i < g, ∃ x, mapping s.mem pgdir i = some x ∧ flag x PTE_U = true)
    (hva : va / PGSIZE ≤ g) (hend : g * PGSIZE < va + len) (hlen : 0 < len) (hfuel : len < fuel) :
    Ends (fun ok s' => ok = false ∧ Space k s' pgdir L ∧ Frame L s.mem s'.mem) (fun _ => False)
      (copyoutLoop pgdir q fuel va buf len s) := by
  induction fuel generalizing va buf len s with
  | zero => omega
  | succ fuel ih =>
    obtain ⟨n, hn⟩ : ∃ n, va / PGSIZE = n := ⟨_, rfl⟩
    have hlt : NUPAGES < NPAGES := by decide
    by_cases heq : n = g
    · obtain ⟨x, hx, hu⟩ := hguard
      rw [copyoutLoop_refuses (hg.trans hlt) hx hu (hn.trans heq) hlen]
      exact ends_ok.2 ⟨rfl, h, .refl _ _⟩
    · have hng : n < g := by omega
      have hnu : n < NUPAGES := by omega
      obtain ⟨off, hoff, hvaoff⟩ : ∃ off < PGSIZE, va = n * PGSIZE + off :=
        ⟨va % PGSIZE, Nat.mod_lt _ (by decide), by rw [← hn, Nat.div_add_mod']⟩
      obtain ⟨x, hx, hu⟩ := hlow n hng
      have hp : userPage s.mem pgdir n = some (P2V (PTE_ADDR x)) := by
        rw [userPage, hx]
        rfl
      have hmin : min (PGSIZE - off) len = PGSIZE - off := by
        dsimp only [PGSIZE] at *
        omega
      have hfit : off + (PGSIZE - off) ≤ PGSIZE := by omega
      have hnext : (n * PGSIZE + PGSIZE) % UINT = (n + 1) * PGSIZE := by
        dsimp only [PGSIZE, UINT, NUPAGES] at *
        omega
      have hpage : (n + 1) * PGSIZE / PGSIZE = n + 1 := Nat.mul_div_cancel _ (by decide)
      have hrest : g * PGSIZE < (n + 1) * PGSIZE + (len - (PGSIZE - off)) := by
        dsimp only [PGSIZE] at *
        omega
      have hmore : 0 < len - (PGSIZE - off) := by
        dsimp only [PGSIZE] at *
        omega
      obtain ⟨hspace, hframe⟩ : Space k
          { s with mem := memmove s.mem (P2V (PTE_ADDR x) + off) q buf (PGSIZE - off) } pgdir L ∧
          Frame L s.mem (memmove s.mem (P2V (PTE_ADDR x) + off) q buf (PGSIZE - off)) :=
        h.write hnu hp hfit
      have hmap : ∀ i < NPAGES,
          mapping (memmove s.mem (P2V (PTE_ADDR x) + off) q buf (PGSIZE - off)) pgdir i =
            mapping s.mem pgdir i := (h.owns.write hnu hp hfit).mapping
      rw [copyoutLoop_pass (hnu.trans hlt) hx hu rfl (userPage_pos h hnu hp) hoff hvaoff hlen, hmin, hnext]
      refine (ih hspace ?_ (fun i hi => ?_) (hpage.trans_le hng) hrest hmore (by omega)).post fun ok s' hr =>
        ⟨hr.1, hr.2.1, hframe.trans hr.2.2⟩
      · rw [hmap g (hg.trans hlt)]
        exact hguard
      · rw [hmap i ((hi.trans hg).trans hlt)]
        exact hlow i hi

/-- A range anywhere: `copyout` may follow a null pointer, but what it writes is in user pages. -/
theorem copyoutLoop_anywhere (h : Space k s pgdir L) (hva : va < UINT) (hfuel : len < fuel) :
    Ends (fun _ s' => Space k s' pgdir L ∧ Frame L s.mem s'.mem) (fun e => e = .null)
      (copyoutLoop pgdir q fuel va buf len s) := by
  induction fuel generalizing va buf len s with
  | zero => omega
  | succ fuel ih =>
    by_cases hlen : 0 < len
    · obtain ⟨n, hn⟩ : ∃ n, va / PGSIZE = n := ⟨_, rfl⟩
      have hpage : n < NPAGES := by
        dsimp only [PGSIZE, UINT, NPAGES] at *
        omega
      cases ht : table s.mem pgdir (n / NPTENTRIES) with
      | none =>
        have hnull : uva2ka pgdir (n * PGSIZE) s = .error .null s := by
          rw [uva2ka, run_bind_ok (walk_none hpage ht)]
          rfl
        rw [copyoutLoop, if_pos hlen]
        dsimp only
        rw [PGROUNDDOWN_page hn, run_bind_error hnull]
        exact ends_error.2 rfl
      | some t =>
        cases hx : mapping s.mem pgdir n with
        | none =>
          have hzero : uva2ka pgdir (n * PGSIZE) s = .ok 0 s := by
            have hword := hx
            rw [mapping, pte_of_table ht, Option.filter_eq_none_iff] at hword
            rw [uva2ka, run_bind_ok (walk_some false hpage ht)]
            dsimp only
            rw [run_load_bind, if_pos (by simpa using hword)]
            rfl
          rw [copyoutLoop, if_pos hlen]
          dsimp only
          rw [PGROUNDDOWN_page hn, run_bind_ok hzero, if_pos rfl]
          exact ends_ok.2 ⟨h, .refl _ _⟩
        | some x =>
          by_cases hu : flag x PTE_U = true
          · have huser : n < NUPAGES := by
              by_contra hk
              have hno := h.kernel n (Nat.not_lt.1 hk) hpage x hx
              exact Bool.false_ne_true (hno.symm.trans hu)
            have hp : userPage s.mem pgdir n = some (P2V (PTE_ADDR x)) := by
              rw [userPage, hx]
              rfl
            obtain ⟨off, hoff, hvaoff⟩ : ∃ off < PGSIZE, va = n * PGSIZE + off :=
              ⟨va % PGSIZE, Nat.mod_lt _ (by decide), by rw [← hn, Nat.div_add_mod']⟩
            have hfit : off + min (PGSIZE - off) len ≤ PGSIZE := by omega
            obtain ⟨hspace, hframe⟩ : Space k { s with
                mem := memmove s.mem (P2V (PTE_ADDR x) + off) q buf (min (PGSIZE - off) len) } pgdir L ∧
                Frame L s.mem (memmove s.mem (P2V (PTE_ADDR x) + off) q buf (min (PGSIZE - off) len)) :=
              h.write huser hp hfit
            rw [copyoutLoop_pass hpage hx hu rfl (userPage_pos h huser hp) hoff hvaoff hlen]
            exact (ih hspace (Nat.mod_lt _ (by decide)) (by omega)).post fun ok s' hr =>
              ⟨hr.1, hframe.trans hr.2⟩
          · rw [copyoutLoop_refuses hpage hx (Bool.eq_false_of_not_eq_true hu) hn hlen]
            exact ends_ok.2 ⟨h, .refl _ _⟩
    · rw [copyoutLoop, if_neg hlen]
      exact ends_ok.2 ⟨h, .refl _ _⟩

end Xv6Container.Paging
