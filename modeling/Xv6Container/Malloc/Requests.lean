import Xv6Container.Malloc.Free
import Mathlib.Algebra.Order.BigOperators.Group.List

/-! `malloc` cuts a block from the list. It walks the list at most twice and asks `sbrk` for memory
at most once. -/

namespace Xv6Container.Malloc

open Function Lib

variable {base n p q r x fuel : ℕ} {h h' : Heap} {list own : List ℕ}

theorem length_le (hl : Blocks base h list) : list.length ≤ h.units := by
  rw [← hl.units, total]
  calc list.length = (list.map fun _ => 1).sum := by simp
    _ ≤ (list.map h.size).sum := List.sum_le_sum fun a ha => (hl.block a ha).2.1

namespace Good

/-- The block taken from the list, and the list that stays. -/
theorem take (hh : Good base h list own) (hx : x ∈ base :: list) (hn : 0 < n)
    (hsize : n ≤ h.size (h.ptr x)) :
    ∃ h' list' b, take h n x (h.ptr x) = (h', b + 8) ∧ Good base h' list' (b :: own) ∧
      Entered base h' list' ∧ h'.size b = n ∧ (∀ a ∈ own, h'.size a = h.size a) ∧
      h'.brk = h.brk ∧ h'.units = h.units := by
  obtain ⟨s, t, hl⟩ := List.append_of_mem hx
  have hhead := (hh.ring_eq hl).head.1
  cases t with
  | nil =>
    rw [List.headD_nil] at hhead
    rw [hhead, hh.empty] at hsize
    omega
  | cons p t =>
    rw [List.headD_cons] at hhead
    rw [hhead] at hsize ⊢
    by_cases hp : h.size p = n
    · obtain ⟨list', hl', hgood⟩ := hh.detach hl
      refine ⟨{ h.setPtr x (h.ptr p) with freep := some x }, list', p, ?_,
        hgood.congr_ptr rfl (fun _ _ => rfl) rfl rfl, ⟨x, by simp [hl'], rfl⟩, hp, fun _ _ => rfl,
        rfl, rfl⟩
      rw [Malloc.take, if_pos hp]
    · have hmem : p ∈ base :: list := by simp [hl]
      have hplist : p ∈ list := by
        refine (List.mem_cons.1 hmem).resolve_left ?_
        rintro rfl
        rw [hh.empty] at hsize
        omega
      have hlt : n < h.size p := by omega
      obtain ⟨b, hb⟩ : ∃ b, b = p + 8 * (h.size p - n) := ⟨_, rfl⟩
      have hfront : (list ++ own).Perm (p :: (list ++ own).erase p) :=
        List.perm_cons_erase (List.mem_append_left own hplist)
      have hsplit := ((hh.blocks.perm hfront).split hn hlt hb).perm (hfront.symm.cons b)
      have hbnot := hsplit.notMem
      rw [List.mem_append, not_or] at hbnot
      have hbase := hh.base_le hmem
      set h₁ := (h.setSize p (h.size p - n)).setSize b n with hh₁
      have hsizeb : h₁.size b = n := update_self ..
      have hother : ∀ a, a ≠ b → a ≠ p → h₁.size a = h.size a := by
        intro a hab hap
        show update (update h.size p _) b n a = _
        rw [update_of_ne hab, update_of_ne hap]
      have hlimit : h₁.limit p = b := by
        show p + 8 * update (update h.size p _) b n p = b
        rw [update_of_ne (by omega), update_self, hb]
      have hnot : ∀ a ∈ base :: list, a ≠ b := by
        intro a ha
        rcases List.mem_cons.1 ha with rfl | ha
        · omega
        · exact ne_of_mem_of_not_mem ha hbnot.1
      refine ⟨{ h₁ with freep := some x }, list, b, ?_, ⟨hh.ring, ?_, ?_, ?_⟩, ⟨x, hx, rfl⟩, hsizeb,
        fun a ha => ?_, rfl, rfl⟩
      · have hb' : (h.setSize p (h.size p - n)).limit p = b := by
          show p + 8 * update h.size p _ p = b
          rw [update_self, hb]
        rw [Malloc.take, if_neg hp]
        dsimp only
        rw [hb']
      · refine hh.spaced.imp_of_mem fun {a c} ha _ hac => ?_
        show h₁.limit a < c
        by_cases hap : a = p
        · rw [hap] at hac ⊢
          rw [hlimit]
          simp only [Heap.limit] at hac
          omega
        · rwa [limit_congr (hother a (hnot a ha) hap)]
      · have hpbase : base ≠ p := by
          rintro rfl
          rw [hh.empty] at hsize
          omega
        exact (hother base (hnot base List.mem_cons_self) hpbase).trans hh.empty
      · exact (hsplit.perm List.perm_middle.symm).congr (fun _ _ => rfl) rfl rfl
      · refine hother a (ne_of_mem_of_not_mem ha hbnot.2) ?_
        rintro rfl
        exact List.disjoint_of_nodup_append hh.blocks.nodup hplist ha

/-- The memory that `sbrk` returns is a block that is not on the list. -/
theorem sbrk (hh : Good base h list own) (hbase : base + 8 ≤ h.brk) (hr : h.brk ≤ r) (hn : 0 < n) :
    Good base ((sbrk h n r).setSize r n) list (r :: own) ∧
      ∀ a ∈ own, ((Malloc.sbrk h n r).setSize r n).size a = h.size a := by
  have hblocks := hh.blocks.sbrk hbase hr hn
  have hnot := hblocks.notMem
  rw [List.mem_append, not_or] at hnot
  constructor
  · refine hh.congr_size (fun a ha => ?_) rfl (hblocks.perm List.perm_middle.symm)
    refine update_of_ne ?_ ..
    rcases List.mem_cons.1 ha with rfl | ha
    · omega
    · exact ne_of_mem_of_not_mem ha hnot.1
  · intro a ha
    exact update_of_ne (ne_of_mem_of_not_mem ha hnot.2) ..

/-- `morecore` returns, and what it got is on the list. -/
theorem morecore (hh : Good base h list own) (hp : Entered base h list) (hbase : base + 8 ≤ h.brk)
    (hr : h.brk ≤ r) (hfuel : list.length + 1 < fuel) :
    ∃ h' list', morecore fuel h n (some r) = some (h', h'.freep) ∧ Good base h' list' own ∧
      Entered base h' list' ∧ (∀ a ∈ own, h'.size a = h.size a) ∧ (∃ a ∈ list', n ≤ h'.size a) ∧
      list'.length ≤ list.length + 1 ∧ h.brk ≤ h'.brk := by
  obtain ⟨nu, hnu⟩ : ∃ nu, nu = if n < 4096 then 4096 else n := ⟨_, rfl⟩
  have hle : n ≤ nu ∧ 0 < nu := by
    rw [hnu]
    split_ifs <;> omega
  obtain ⟨hgood, hsize⟩ := hh.sbrk hbase hr hle.2
  obtain ⟨h', list', hfree, hgood', hp', hsize', ⟨a, ha, hbig⟩, hlength, hbrk, -⟩ :=
    hgood.free hp hfuel
  have hself : ((Malloc.sbrk h nu r).setSize r nu).size r = nu := update_self ..
  rw [hself] at hbig
  refine ⟨h', list', ?_, hgood', hp', fun a ha => (hsize' a ha).trans (hsize a ha),
    ⟨a, ha, hle.1.trans hbig⟩, hlength, ?_⟩
  · rw [Malloc.morecore, ← hnu, hfree]
    rfl
  · rw [hbrk]
    show h.brk ≤ r + 8 * nu
    omega

end Good

/-! ### The loop -/

/-- The loop goes on at a small block, unless the list begins there. -/
theorem mallocLoop_walk {j : ℕ} {rs : List (Option ℕ)} (hfreep : h.freep = some p)
    (hsmall : ∀ i < j, h.size (h.ptr^[i + 1] x) < n ∧ h.ptr^[i + 1] x ≠ p) :
    mallocLoop n (fuel + j) rs h x (h.ptr x) =
      mallocLoop n fuel rs h (h.ptr^[j] x) (h.ptr^[j + 1] x) := by
  induction j generalizing x with
  | zero => rfl
  | succ j ih =>
    have h0 : h.size (h.ptr x) < n ∧ h.ptr x ≠ p := hsmall 0 (by omega)
    have hne : h.freep ≠ some (h.ptr x) := by
      rw [hfreep]
      exact fun e => h0.2 (Option.some.inj e).symm
    rw [← Nat.add_assoc, mallocLoop.eq_def]
    dsimp only
    rw [if_neg (Nat.not_le.2 h0.1), if_neg hne]
    exact ih fun i hi => hsmall (i + 1) (by omega)

namespace Good

/-- Where a walk of the list stops. -/
theorem exists_stop (hh : Good base h list own) (hx : x ∈ base :: list) (hp : p ∈ base :: list)
    (n : ℕ) :
    ∃ j ≤ list.length, (n ≤ h.size (h.ptr^[j + 1] x) ∨ h.ptr^[j + 1] x = p) ∧
      ∀ i < j, h.size (h.ptr^[i + 1] x) < n ∧ h.ptr^[i + 1] x ≠ p := by
  obtain ⟨k, hk, hkp⟩ := hh.ring.reaches hx hp
  have hex : ∃ j, n ≤ h.size (h.ptr^[j + 1] x) ∨ h.ptr^[j + 1] x = p := ⟨k, .inr hkp⟩
  refine ⟨Nat.find hex, (Nat.find_min' hex (.inr hkp)).trans hk, Nat.find_spec hex, fun i hi => ?_⟩
  have hmin := Nat.find_min hex hi
  omega

/-- A block that is large enough is found before the walk is back at `p`. -/
theorem found (hh : Good base h list own) (hp : p ∈ base :: list) {a : ℕ} (ha : a ∈ list)
    (hbig : n ≤ h.size a) :
    ∃ j ≤ list.length, n ≤ h.size (h.ptr^[j + 1] p) ∧
      ∀ i < j, h.size (h.ptr^[i + 1] p) < n ∧ h.ptr^[i + 1] p ≠ p := by
  obtain ⟨j, hj, hstop, hsmall⟩ := hh.exists_stop hp hp n
  refine ⟨j, hj, ?_, hsmall⟩
  by_contra hlt
  -- The walk has been all around.
  have hround : IsPeriodicPt h.ptr (j + 1) p := hstop.resolve_left hlt
  obtain ⟨k, -, hk⟩ := hh.ring.reaches hp (List.mem_cons_of_mem base ha)
  rw [← hround.iterate_mod_apply] at hk
  rcases hm : (k + 1) % (j + 1) with _ | m
  · rw [hm] at hk
    have hap : a = p := hk.symm
    rw [hround.eq, ← hap] at hlt
    exact hlt hbig
  · rw [hm] at hk
    have hmj : m < j := by
      have hmod := Nat.mod_lt (k + 1) (by omega : 0 < j + 1)
      omega
    have hlt := (hsmall m hmj).1
    rw [hk] at hlt
    omega

/-- `malloc` returns a block of the size asked for, or null if `sbrk` fails. -/
theorem mallocLoop (hh : Good base h list own) (hp : p ∈ base :: list) (hfreep : h.freep = some p)
    {o : Option ℕ} (hbase : base + 8 ≤ h.brk) (ho : ∀ r, o = some r → h.brk ≤ r) (hn : 0 < n)
    (hfuel : 2 * list.length + 3 < fuel) :
    ∃ h' list' res, mallocLoop n fuel [o] h p (h.ptr p) = some (h', res) ∧
      Entered base h' list' ∧ (∀ a ∈ own, h'.size a = h.size a) ∧ h.brk ≤ h'.brk ∧
      (res = none ∧ Good base h' list' own ∨
        ∃ b, res = some (b + 8) ∧ Good base h' list' (b :: own) ∧ h'.size b = n) := by
  obtain ⟨j, hj, hstop, hsmall⟩ := hh.exists_stop hp hp n
  obtain ⟨f, hf⟩ : ∃ f, fuel = f + 1 + j := ⟨fuel - 1 - j, by omega⟩
  have hx := hh.ring.iterate_mem hp j
  rw [hf, mallocLoop_walk hfreep hsmall, Malloc.mallocLoop]
  by_cases hlarge : n ≤ h.size (h.ptr^[j + 1] p)
  · rw [iterate_succ_apply'] at hlarge ⊢
    obtain ⟨h', list', b, htake, hgood, hp', hb, hsize, hbrk, -⟩ := hh.take hx hn hlarge
    rw [if_pos hlarge, htake]
    exact ⟨h', list', some (b + 8), rfl, hp', hsize, hbrk.ge, .inr ⟨b, rfl, hgood, hb⟩⟩
  have hback := hstop.resolve_left hlarge
  rw [if_neg hlarge, if_pos (by rw [hfreep, hback])]
  cases o with
  | none => exact ⟨h, list, none, rfl, ⟨p, hp, hfreep⟩, fun _ _ => rfl, le_refl _, .inl ⟨rfl, hh⟩⟩
  | some r =>
    obtain ⟨h₁, list₁, hmore, hh₁, ⟨q, hq, hfreep₁⟩, hsize₁, ⟨a, ha, hbig⟩, hlength, hbrk₁⟩ :=
      hh.morecore (n := n) ⟨p, hp, hfreep⟩ hbase (ho r rfl) (by omega : list.length + 1 < f)
    rw [hfreep₁] at hmore
    obtain ⟨j', hj', hlarge', hsmall'⟩ := hh₁.found hq ha hbig
    obtain ⟨f', hf'⟩ : ∃ f', f = f' + 1 + j' := ⟨f - 1 - j', by omega⟩
    have hx' := hh₁.ring.iterate_mem hq j'
    rw [iterate_succ_apply'] at hlarge'
    obtain ⟨h', list', b, htake, hgood, hp', hb, hsize, hbrk, -⟩ := hh₁.take hx' hn hlarge'
    have hloop : Malloc.mallocLoop n f [] h₁ q (h₁.ptr q) = some (h', some (b + 8)) := by
      rw [hf', mallocLoop_walk hfreep₁ hsmall', Malloc.mallocLoop, iterate_succ_apply',
        if_pos hlarge', htake]
    rw [hmore]
    exact ⟨h', list', some (b + 8), hloop, hp', fun a ha => (hsize a ha).trans (hsize₁ a ha),
      hbrk₁.trans hbrk.ge, .inr ⟨b, rfl, hgood, hb⟩⟩

end Good
end Xv6Container.Malloc
