import Xv6Container.Malloc.Umalloc
import Mathlib.Algebra.BigOperators.Group.List.Basic
import Mathlib.Algebra.Ring.Nat

/-! The blocks of the heap, free or not, without the list: they lie above `base` and below the break,
do not overlap, and make up what `sbrk` returned. Two that touch may be joined, and one may be
split. -/

namespace Xv6Container.Malloc

open Function

variable {base a b : ℕ} {h h' : Heap} {l m : List ℕ}

/-- The blocks do not overlap. -/
def Apart (h : Heap) (a b : ℕ) : Prop := h.limit a ≤ b ∨ h.limit b ≤ a

/-- The units of some blocks. -/
def total (h : Heap) (l : List ℕ) : ℕ := (l.map h.size).sum

structure Blocks (base : ℕ) (h : Heap) (l : List ℕ) : Prop where
  block : ∀ a ∈ l, base + 8 ≤ a ∧ 0 < h.size a ∧ h.limit a ≤ h.brk
  apart : l.Pairwise (Apart h)
  units : total h l = h.units

theorem Apart.symm (hab : Apart h a b) : Apart h b a := Or.symm hab

instance (h : Heap) : Std.Symm (Apart h) := ⟨fun _ _ => Apart.symm⟩

theorem total_cons (h : Heap) (a : ℕ) (l : List ℕ) : total h (a :: l) = h.size a + total h l := by
  rw [total, List.map_cons, List.sum_cons, total]

theorem total_perm (hlm : l.Perm m) : total h l = total h m := (hlm.map h.size).sum_eq

theorem total_congr (hsize : ∀ a ∈ l, h'.size a = h.size a) : total h' l = total h l := by
  rw [total, List.map_congr_left hsize, total]

theorem limit_congr (hsize : h'.size a = h.size a) : h'.limit a = h.limit a := by
  rw [Heap.limit, hsize, Heap.limit]

theorem limit_of_ne (hab : b ≠ a) (n : ℕ) : (h.setSize a n).limit b = h.limit b :=
  limit_congr (update_of_ne hab ..)

namespace Blocks

theorem perm (hl : Blocks base h l) (hlm : l.Perm m) : Blocks base h m := by
  constructor
  · intro a ha
    exact hl.block a (hlm.mem_iff.2 ha)
  · exact (hlm.pairwise_iff Apart.symm).1 hl.apart
  · rw [← total_perm hlm, hl.units]

theorem nodup (hl : Blocks base h l) : l.Nodup := by
  refine hl.apart.imp_of_mem fun {a b} ha _ hab => ?_
  rintro rfl
  have hblock := hl.block a ha
  simp only [Apart, Heap.limit] at hab
  omega

theorem notMem (hl : Blocks base h (a :: l)) : a ∉ l := (List.nodup_cons.1 hl.nodup).1

/-- Other sizes do not matter. -/
theorem congr (hl : Blocks base h l) (hsize : ∀ a ∈ l, h'.size a = h.size a)
    (hbrk : h'.brk = h.brk) (hunits : h'.units = h.units) : Blocks base h' l := by
  constructor
  · intro a ha
    rw [hsize a ha, limit_congr (hsize a ha), hbrk]
    exact hl.block a ha
  · refine hl.apart.imp_of_mem fun {a b} ha hb hab => ?_
    rwa [Apart, limit_congr (hsize a ha), limit_congr (hsize b hb)]
  · rw [total_congr hsize, hunits, hl.units]

/-- `a` takes `b`, which begins where `a` ends. -/
theorem join (hl : Blocks base h (a :: b :: l)) (hab : h.limit a = b) :
    Blocks base (h.setSize a (h.size a + h.size b)) (a :: l) := by
  have ha := hl.notMem
  have hblocka := hl.block a (by simp)
  have hblockb := hl.block b (by simp)
  obtain ⟨haparta, hapart⟩ := List.pairwise_cons.1 hl.apart
  obtain ⟨hapartb, hapart⟩ := List.pairwise_cons.1 hapart
  have hne : ∀ c ∈ l, c ≠ a := fun c hc e => ha (by simp [← e, hc])
  have hself : (h.setSize a (h.size a + h.size b)).limit a = h.limit b := by
    show a + 8 * update h.size a _ a = _
    rw [update_self]
    simp only [Heap.limit] at hab ⊢
    omega
  constructor
  · intro c hc
    rcases List.mem_cons.1 hc with rfl | hc
    · rw [hself]
      refine ⟨hblocka.1, ?_, hblockb.2.2⟩
      show 0 < update h.size c _ c
      rw [update_self]
      omega
    · rw [limit_of_ne (hne c hc)]
      show _ ∧ 0 < update h.size a _ c ∧ _
      rw [update_of_ne (hne c hc)]
      exact hl.block c (by simp [hc])
  · refine List.pairwise_cons.2 ⟨fun c hc => ?_, hapart.imp_of_mem fun {c d} hc hd hcd => ?_⟩
    · have hblock := hl.block c (by simp [hc])
      have h1 := haparta c (by simp [hc])
      have h2 := hapartb c hc
      rw [Apart, hself, limit_of_ne (hne c hc)]
      simp only [Apart, Heap.limit] at h1 h2 hab ⊢
      omega
    · rwa [Apart, limit_of_ne (hne c hc), limit_of_ne (hne d hd)]
  · have hunits := hl.units
    rw [total_cons, total_cons] at hunits
    rw [total_cons, total_congr fun c hc => update_of_ne (hne c hc) ..]
    show update h.size a _ a + _ = h.units
    rw [update_self]
    omega

/-- The tail of `a` becomes a block of its own. -/
theorem split (hl : Blocks base h (a :: l)) {n : ℕ} (hn : 0 < n) (hna : n < h.size a)
    (hb : b = a + 8 * (h.size a - n)) :
    Blocks base ((h.setSize a (h.size a - n)).setSize b n) (b :: a :: l) := by
  have ha := hl.notMem
  have hblocka := hl.block a (by simp)
  obtain ⟨haparta, hapart⟩ := List.pairwise_cons.1 hl.apart
  have hne : ∀ c ∈ l, c ≠ a := fun c hc => ne_of_mem_of_not_mem hc ha
  have hneb : ∀ c ∈ l, c ≠ b := by
    intro c hc
    have h1 := haparta c hc
    have hblock := hl.block c (by simp [hc])
    simp only [Apart, Heap.limit] at h1
    omega
  have hab : a ≠ b := by omega
  set h₁ := (h.setSize a (h.size a - n)).setSize b n with hh₁
  have hsizeb : h₁.size b = n := update_self ..
  have hsizea : h₁.size a = h.size a - n := by
    show update (update h.size a _) b _ a = _
    rw [update_of_ne hab, update_self]
  have hsize : ∀ c ∈ l, h₁.size c = h.size c := by
    intro c hc
    show update (update h.size a _) b _ c = _
    rw [update_of_ne (hneb c hc), update_of_ne (hne c hc)]
  have hlimitb : h₁.limit b = h.limit a := by
    rw [Heap.limit, hsizeb, Heap.limit]
    omega
  have hlimita : h₁.limit a = b := by
    rw [Heap.limit, hsizea, hb]
  constructor
  · intro c hc
    rcases List.mem_cons.1 hc with rfl | hc
    · rw [hsizeb, hlimitb]
      exact ⟨by omega, hn, hblocka.2.2⟩
    rcases List.mem_cons.1 hc with rfl | hc
    · rw [hsizea, hlimita]
      refine ⟨hblocka.1, by omega, ?_⟩
      show _ ≤ h.brk
      have hbrk := hblocka.2.2
      simp only [Heap.limit] at hbrk
      omega
    · rw [hsize c hc, limit_congr (hsize c hc)]
      exact hl.block c (by simp [hc])
  · refine List.pairwise_cons.2 ⟨fun c hc => ?_, List.pairwise_cons.2 ⟨fun c hc => ?_, ?_⟩⟩
    · rcases List.mem_cons.1 hc with rfl | hc
      · exact .inr hlimita.le
      · have h1 := haparta c hc
        rw [Apart, hlimitb, limit_congr (hsize c hc)]
        exact h1.imp_right fun h1 => by omega
    · have h1 := haparta c hc
      rw [Apart, hlimita, limit_congr (hsize c hc)]
      simp only [Apart, Heap.limit] at h1 ⊢
      omega
    · refine hapart.imp_of_mem fun {c d} hc hd hcd => ?_
      rwa [Apart, limit_congr (hsize c hc), limit_congr (hsize d hd)]
  · have hunits := hl.units
    rw [total_cons] at hunits
    rw [total_cons, total_cons, total_congr hsize, hsizea, hsizeb]
    show _ = h.units
    omega

/-- `sbrk` has returned memory above the rest. -/
theorem sbrk {nu : ℕ} (hl : Blocks base h l) (hbase : base + 8 ≤ h.brk) (hbrk : h.brk ≤ a)
    (hnu : 0 < nu) : Blocks base ((sbrk h nu a).setSize a nu) (a :: l) := by
  have hne : ∀ c ∈ l, c ≠ a := by
    intro c hc
    have hblock := hl.block c hc
    simp only [Heap.limit] at hblock
    omega
  have hself : ((Malloc.sbrk h nu a).setSize a nu).limit a = a + 8 * nu := by
    show a + 8 * update h.size a nu a = _
    rw [update_self]
  constructor
  · intro c hc
    rcases List.mem_cons.1 hc with rfl | hc
    · rw [hself]
      refine ⟨by omega, ?_, le_refl _⟩
      show 0 < update h.size c nu c
      rwa [update_self]
    · rw [limit_of_ne (hne c hc)]
      have hblock := hl.block c hc
      show _ ∧ 0 < update h.size a nu c ∧ h.limit c ≤ a + 8 * nu
      rw [update_of_ne (hne c hc)]
      omega
  · refine List.pairwise_cons.2 ⟨fun c hc => ?_, hl.apart.imp_of_mem fun {c d} hc hd hcd => ?_⟩
    · rw [Apart, limit_of_ne (hne c hc)]
      exact .inr ((hl.block c hc).2.2.trans hbrk)
    · rwa [Apart, limit_of_ne (hne c hc), limit_of_ne (hne d hd)]
  · rw [total_cons, total_congr fun c hc => update_of_ne (hne c hc) ..]
    show update h.size a nu a + total h l = h.units + nu
    rw [update_self, hl.units, Nat.add_comm]

end Blocks
end Xv6Container.Malloc
