import Xv6Container.Malloc.Blocks

/-! `free` keeps the list: a ring through `base` in address order, with a gap after each block. The
blocks that are not on it are `own`. -/

namespace Xv6Container.Malloc

open Function Lib

variable {base bp p q : ℕ} {h h' : Heap} {list own s t u : List ℕ}

/-- Blocks in address order, and no block touches another. -/
def Spaced (h : Heap) (list : List ℕ) : Prop := list.Pairwise fun a b => h.limit a < b

structure Good (base : ℕ) (h : Heap) (list own : List ℕ) : Prop where
  ring : Around h.ptr base list
  spaced : Spaced h (base :: list)
  empty : h.size base = 0
  blocks : Blocks base h (list ++ own)

/-- The list is entered at one of its elements. -/
def Entered (base : ℕ) (h : Heap) (list : List ℕ) : Prop := ∃ p ∈ base :: list, h.freep = some p

/-- Two lists that differ by one element in the middle. -/
theorem perm_of_split {l m : List ℕ} {a x y : ℕ} (hl : a :: l = s ++ x :: y :: t)
    (hm : a :: m = s ++ x :: t) : l.Perm (y :: m) := by
  have hmiddle : (s ++ [x] ++ y :: t).Perm (y :: (s ++ [x] ++ t)) := List.perm_middle
  have hperm : (a :: l).Perm (y :: a :: m) := by
    rw [hl, hm]
    simpa using hmiddle
  exact (hperm.trans (.swap a y m)).cons_inv

theorem mem_of_split {l m : List ℕ} {a b x y : ℕ} (hl : a :: l = s ++ x :: y :: t)
    (hm : a :: m = s ++ x :: t) (hb : b ∈ a :: m) : b ∈ a :: l := by
  rw [hm] at hb
  rw [hl]
  simp only [List.mem_append, List.mem_cons] at hb ⊢
  exact hb.imp_right (Or.imp_right .inr)

/-- What stands before `x` begins where the whole list did. -/
theorem exists_rest {l : List ℕ} {a x : ℕ} (hl : a :: l = s ++ x :: t) :
    ∃ m, a :: m = s ++ x :: u := by
  cases s with
  | nil =>
    rw [List.nil_append, List.cons.injEq] at hl
    exact ⟨u, by rw [hl.1, List.nil_append]⟩
  | cons b s =>
    rw [List.cons_append, List.cons.injEq] at hl
    exact ⟨s ++ x :: u, by rw [hl.1, List.cons_append]⟩

namespace Good

theorem ring_eq (hh : Good base h list own) (hl : base :: list = s ++ p :: t) :
    Links h.ptr (s ++ p :: (t ++ [base])) := by
  have hring : Links h.ptr ((base :: list) ++ [base]) := hh.ring
  rw [hl] at hring
  simpa using hring

theorem order (hh : Good base h list own) (hl : base :: list = s ++ p :: t) :
    (∀ a ∈ s, h.limit a < p) ∧ ∀ b ∈ t, h.limit p < b := by
  have hspaced := hh.spaced
  rw [hl] at hspaced
  have hspaced := List.pairwise_append.1 hspaced
  exact ⟨fun a ha => hspaced.2.2 a ha p List.mem_cons_self,
    fun b hb => (List.pairwise_cons.1 hspaced.2.1).1 b hb⟩

theorem sorted (hh : Good base h list own) : (base :: list).Pairwise (· < ·) := by
  refine hh.spaced.imp fun {a b} hab => ?_
  simp only [Heap.limit] at hab
  omega

theorem notMem (hh : Good base h list own) (hl : base :: list = s ++ p :: t) : p ∉ s ∧ p ∉ t := by
  constructor
  · intro hp
    have hlt := (hh.order hl).1 p hp
    simp only [Heap.limit] at hlt
    omega
  · intro hp
    have hlt := (hh.order hl).2 p hp
    simp only [Heap.limit] at hlt
    omega

/-- A block that is not on the list. -/
theorem notMem_own (hh : Good base h list (bp :: own)) : bp ∉ base :: list ∧ bp ∉ own := by
  have hbp := hh.blocks.block bp (by simp)
  have hnot := (hh.blocks.perm List.perm_middle).notMem
  simp only [List.mem_append, not_or] at hnot
  refine ⟨?_, hnot.2⟩
  rw [List.mem_cons, not_or]
  exact ⟨by omega, hnot.1⟩

theorem apart_own (hh : Good base h list (bp :: own)) {b : ℕ} (hb : b ∈ list) : Apart h bp b :=
  (List.pairwise_cons.1 (hh.blocks.perm List.perm_middle).apart).1 b (List.mem_append_left own hb)

/-- The blocks after the place of `bp` lie above it. -/
theorem limit_le_of_mem (hh : Good base h list (bp :: own)) (hl : base :: list = s ++ p :: t)
    (ht : ∀ b ∈ t, bp < b) : ∀ b ∈ t, h.limit bp ≤ b := by
  intro b hb
  have hmem : b ∈ base :: list := by simp [hl, hb]
  have hblock := hh.blocks.block bp (by simp)
  have hlt := ht b hb
  rcases List.mem_cons.1 hmem with rfl | hmem
  · omega
  · have hapart := hh.apart_own hmem
    simp only [Apart, Heap.limit] at hapart ⊢
    omega

/-- The block before the place of `bp` lies below it. -/
theorem limit_le (hh : Good base h list (bp :: own)) (hp : p ∈ base :: list) (hlt : p < bp) :
    h.limit p ≤ bp := by
  rcases List.mem_cons.1 hp with rfl | hp
  · rw [Heap.limit, hh.empty]
    omega
  · have hblock := hh.blocks.block bp (by simp)
    have hapart := hh.apart_own hp
    simp only [Apart, Heap.limit] at hapart ⊢
    omega

theorem perm (hh : Good base h list own) (hown : own.Perm u) : Good base h list u :=
  ⟨hh.ring, hh.spaced, hh.empty, hh.blocks.perm (hown.append_left list)⟩

/-- The pointers of other blocks do not matter. -/
theorem congr_ptr (hh : Good base h list own) (hsize : h'.size = h.size)
    (hptr : ∀ a ∈ base :: list, h'.ptr a = h.ptr a) (hbrk : h'.brk = h.brk)
    (hunits : h'.units = h.units) : Good base h' list own := by
  have hlimit : h'.limit = h.limit := by
    funext a
    exact limit_congr (congrFun hsize a)
  constructor
  · exact Links.congr (s := base :: list) hh.ring hptr
  · rw [Spaced, hlimit]
    exact hh.spaced
  · rw [hsize]
    exact hh.empty
  · exact hh.blocks.congr (fun a _ => congrFun hsize a) hbrk hunits

/-- The block `q` after `p` leaves the list. -/
theorem detach (hh : Good base h list own) (hl : base :: list = s ++ p :: q :: t) :
    ∃ list', base :: list' = s ++ p :: t ∧ Good base (h.setPtr p (h.ptr q)) list' (q :: own) := by
  obtain ⟨list', hl'⟩ := exists_rest (u := t) hl
  have hnot := hh.notMem hl
  refine ⟨list', hl', ?_, ?_, hh.empty, ?_⟩
  · have hring := (hh.ring_eq hl).cut hnot.1 fun ht => hnot.2 (List.mem_cons_of_mem q ht)
    show Links (update h.ptr p (h.ptr q)) ((base :: list') ++ [base])
    rw [hl']
    simpa using hring
  · have hspaced := hh.spaced
    rw [hl] at hspaced
    show Spaced h (base :: list')
    rw [hl']
    exact hspaced.sublist (.append_left (.cons_cons p (List.sublist_cons_self q t)) s)
  · have hperm := ((perm_of_split hl hl').append_right own).trans List.perm_middle.symm
    exact (hh.blocks.perm hperm).congr (fun _ _ => rfl) rfl rfl

/-- The sizes of blocks that are not on the list do not matter to it. -/
theorem congr_size (hh : Good base h list own) (hsize : ∀ a ∈ base :: list, h'.size a = h.size a)
    (hptr : h'.ptr = h.ptr) (hblocks : Blocks base h' (list ++ u)) : Good base h' list u := by
  constructor
  · rw [hptr]
    exact hh.ring
  · refine hh.spaced.imp_of_mem fun {a b} ha _ hab => ?_
    rwa [limit_congr (hsize a ha)]
  · rw [hsize base List.mem_cons_self]
    exact hh.empty
  · exact hblocks

/-- `bp`, which is not on the list, takes the block `q` after `p`. -/
theorem absorb (hh : Good base h list (bp :: own)) (hl : base :: list = s ++ p :: q :: t)
    (hq : h.limit bp = q) :
    ∃ list', base :: list' = s ++ p :: t ∧
      Good base ((h.setSize bp (h.size bp + h.size q)).setPtr p (h.ptr q)) list' (bp :: own) := by
  obtain ⟨list', hl', hgood⟩ := hh.detach hl
  refine ⟨list', hl', hgood.congr_size (fun a ha => ?_) rfl ?_⟩
  · exact update_of_ne (ne_of_mem_of_not_mem (mem_of_split hl hl' ha) hh.notMem_own.1) ..
  · have hfront : (list' ++ q :: bp :: own).Perm (bp :: q :: (list' ++ own)) := by
      have hswap : (list' ++ q :: bp :: own).Perm (q :: bp :: (list' ++ own)) :=
        List.perm_middle.trans (List.perm_middle.cons q)
      exact hswap.trans (.swap bp q _)
    have hjoined := ((hgood.blocks.perm hfront).join hq).perm List.perm_middle.symm
    exact hjoined.congr (fun _ _ => rfl) rfl rfl

/-- A block of the list takes `bp`. -/
theorem extend (hh : Good base h list (bp :: own)) (hl : base :: list = s ++ p :: t)
    (hp : h.limit p = bp) (ht : ∀ b ∈ t, h.limit bp < b) :
    Good base (h.setSize p (h.size p + h.size bp)) list own := by
  have hbp := hh.blocks.block bp (by simp)
  have hne : base ≠ p := by
    rintro rfl
    rw [Heap.limit, hh.empty] at hp
    omega
  have hself : (h.setSize p (h.size p + h.size bp)).limit p = h.limit bp := by
    show p + 8 * update h.size p _ p = _
    rw [update_self]
    simp only [Heap.limit] at hp ⊢
    omega
  have hplist : p ∈ list := by
    have hmem : p ∈ base :: list := by simp [hl]
    exact (List.mem_cons.1 hmem).resolve_left hne.symm
  constructor
  · exact hh.ring
  · refine hh.spaced.imp_of_mem fun {a b} _ hb hab => ?_
    by_cases ha : a = p
    · -- What stands after `p` stands after `bp` too.
      subst ha
      rw [hself]
      apply ht
      rw [hl, List.mem_append, List.mem_cons] at hb
      rcases hb with hb | rfl | hb
      · have hlt := (hh.order hl).1 b hb
        simp only [Heap.limit] at hlt hab
        omega
      · simp only [Heap.limit] at hab
        omega
      · exact hb
    · rwa [limit_of_ne ha]
  · show update h.size p _ base = 0
    rw [update_of_ne hne]
    exact hh.empty
  · obtain ⟨l₁, l₂, rfl⟩ := List.append_of_mem hplist
    have hfront : (l₁ ++ p :: l₂ ++ own).Perm (p :: (l₁ ++ l₂ ++ own)) := by
      simp
    have hblocks := (hh.blocks.perm List.perm_middle).perm ((hfront.cons bp).trans (.swap p bp _))
    exact (hblocks.join hp).perm hfront.symm

/-- `bp` is put in after `p`. -/
theorem insert (hh : Good base h list (bp :: own)) (hl : base :: list = s ++ p :: t)
    (hp : h.limit p < bp) (ht : ∀ b ∈ t, h.limit bp < b) :
    ∃ list', base :: list' = s ++ p :: bp :: t ∧
      Good base ((h.setPtr bp (h.ptr p)).setPtr p bp) list' own := by
  obtain ⟨list', hl'⟩ := exists_rest (u := bp :: t) hl
  have hperm := perm_of_split hl' hl
  have hnot := hh.notMem hl
  have hbp := hh.notMem_own.1
  rw [hl] at hbp
  simp only [List.mem_append, List.mem_cons, not_or] at hbp
  refine ⟨list', hl', ?_, ?_, hh.empty, ?_⟩
  · have hring := (hh.ring_eq hl).put hnot.1 hnot.2 hbp.2.1 hbp.1 hbp.2.2
    show Links (update (update h.ptr bp (h.ptr p)) p bp) ((base :: list') ++ [base])
    rw [hl']
    simpa using hring
  · have hspaced := hh.spaced
    rw [hl] at hspaced
    have horder := (hh.order hl).1
    have hsplit := List.pairwise_append.1 hspaced
    have htail := List.pairwise_cons.1 hsplit.2.1
    show Spaced h _
    rw [Spaced, hl', List.pairwise_append, List.pairwise_cons, List.pairwise_cons]
    refine ⟨hsplit.1, ⟨?_, ht, htail.2⟩, ?_⟩
    · intro b hb
      rcases List.mem_cons.1 hb with rfl | hb
      · exact hp
      · exact htail.1 b hb
    · intro a ha b hb
      rcases List.mem_cons.1 hb with rfl | hb
      · exact horder a ha
      rcases List.mem_cons.1 hb with rfl | hb
      · have hlt := horder a ha
        simp only [Heap.limit] at hlt hp ⊢
        omega
      · exact hsplit.2.2 a ha b (List.mem_cons_of_mem p hb)
  · have hblocks := hh.blocks.perm (List.perm_middle.trans (hperm.symm.append_right own))
    exact hblocks.congr (fun _ _ => rfl) rfl rfl

end Good

/-! ### The insertion point -/

/-- A place in an ordered list. -/
theorem exists_place {a : ℕ} {l : List ℕ} (hl : (a :: l).Pairwise (· < ·)) (ha : a < bp)
    (hbp : bp ∉ l) : ∃ s p t, a :: l = s ++ p :: t ∧ p < bp ∧ ∀ b ∈ t, bp < b := by
  induction l generalizing a with
  | nil => exact ⟨[], a, [], rfl, ha, fun b hb => nomatch hb⟩
  | cons b l ih =>
    have hl := (List.pairwise_cons.1 hl).2
    rw [List.mem_cons, not_or] at hbp
    by_cases hb : b < bp
    · obtain ⟨s, p, t, hs, hp⟩ := ih hl hb hbp.2
      exact ⟨a :: s, p, t, by rw [hs, List.cons_append], hp⟩
    · refine ⟨[], a, b :: l, rfl, ha, fun c hc => ?_⟩
      rcases List.mem_cons.1 hc with rfl | hc
      · omega
      · have hlt := (List.pairwise_cons.1 hl).1 c hc
        omega

namespace Good

theorem base_le (hh : Good base h list own) (hp : p ∈ base :: list) : base ≤ p := by
  rcases List.mem_cons.1 hp with rfl | hp
  · exact le_refl p
  · have hblock := hh.blocks.block p (List.mem_append_left _ hp)
    omega

/-- The tests of the loop single out the place of `bp`. -/
theorem place_iff (hh : Good base h list (bp :: own)) (hl : base :: list = s ++ p :: t) :
    Place h bp p ↔ p < bp ∧ ∀ b ∈ t, bp < b := by
  have hbase : base < bp := by
    have hblock := hh.blocks.block bp (by simp)
    omega
  have hhead := (hh.ring_eq hl).head.1
  have horder := (hh.order hl).2
  cases t with
  | nil =>
    have hp : base ≤ p := hh.base_le (by simp [hl])
    rw [Place, hhead, List.headD_nil]
    simp only [List.not_mem_nil, false_imp_iff, implies_true, and_true]
    omega
  | cons q t =>
    have hpq := horder q List.mem_cons_self
    have hq : ∀ b ∈ t, q < b := by
      intro b hb
      have hlt := (hh.order (s := s ++ [p]) (by simpa using hl)).2 b hb
      simp only [Heap.limit] at hlt
      omega
    rw [Place, hhead, List.headD_cons, List.forall_mem_cons]
    simp only [Heap.limit] at hpq
    constructor
    · intro hplace
      have hlt : p < bp ∧ bp < q := by omega
      exact ⟨hlt.1, hlt.2, fun b hb => hlt.2.trans (hq b hb)⟩
    · intro hlt
      exact .inl ⟨hlt.1, hlt.2.1⟩

/-- The loop of `free` ends at the place of `bp`. -/
theorem walk_place (hh : Good base h list (bp :: own)) (hp : p ∈ base :: list) {fuel : ℕ}
    (hfuel : list.length + 1 < fuel) :
    ∃ q s t, walk h.ptr (Place h bp) fuel p = some q ∧ base :: list = s ++ q :: t ∧ q < bp ∧
      ∀ b ∈ t, bp < b := by
  have hbase : base < bp := by
    have hblock := hh.blocks.block bp (by simp)
    omega
  have hlist : bp ∉ list := fun hmem => hh.notMem_own.1 (List.mem_cons_of_mem base hmem)
  obtain ⟨s, x, t, hs, hx⟩ := exists_place hh.sorted hbase hlist
  obtain ⟨k, hk, hkx⟩ := hh.ring.reaches hp (q := x) (by simp [hs])
  have hplace : Place h bp (h.ptr^[k + 1] p) := by
    rw [hkx]
    exact (hh.place_iff hs).2 hx
  obtain ⟨j, hj, hstop⟩ := walk_of_iterate (by omega : k + 1 < fuel) hplace
  obtain ⟨s, t, hs⟩ := List.append_of_mem (hh.ring.iterate_mem hp j)
  exact ⟨_, s, t, hj, hs, (hh.place_iff hs).1 hstop⟩

/-! ### Joining -/

/-- Once `bp` has its pointer, `p` may lead there just as well. -/
theorem joinUpper (hh : Good base h list (bp :: own)) (hl : base :: list = s ++ p :: t)
    (ht : ∀ b ∈ t, bp < b) :
    ∃ list' t', base :: list' = s ++ p :: t' ∧
      Good base ((joinUpper h bp p).setPtr p ((joinUpper h bp p).ptr bp)) list' (bp :: own) ∧
      (∀ b ∈ t', (joinUpper h bp p).limit bp < b) ∧
      (∀ a, a ≠ bp → (joinUpper h bp p).size a = h.size a) ∧
      h.size bp ≤ (joinUpper h bp p).size bp ∧ list'.length ≤ list.length := by
  have hbp := hh.notMem_own.1
  have hhead := (hh.ring_eq hl).head.1
  have hupper := hh.limit_le_of_mem hl ht
  by_cases hq : h.limit bp = h.ptr p
  · cases t with
    | nil =>
      have hblock := hh.blocks.block bp (by simp)
      rw [hhead, List.headD_nil, Heap.limit] at hq
      omega
    | cons q t =>
      rw [List.headD_cons] at hhead
      rw [hhead] at hq
      obtain ⟨list', hl', hgood⟩ := hh.absorb hl hq
      have hlength := congrArg List.length hl'
      have hlength' := congrArg List.length hl
      simp only [List.length_cons, List.length_append] at hlength hlength'
      have hself : update h.size bp (h.size bp + h.size q) bp = h.size bp + h.size q :=
        update_self ..
      have hjoin : Malloc.joinUpper h bp p =
          (h.setSize bp (h.size bp + h.size q)).setPtr bp (h.ptr q) := by
        rw [Malloc.joinUpper, hhead, if_pos hq]
        show (h.setSize bp _).setPtr bp (h.ptr (h.ptr p)) = _
        rw [hhead]
      rw [hjoin]
      refine ⟨list', t, hl', ?_, fun b hb => ?_, fun a ha => update_of_ne ha .., ?_, by omega⟩
      · refine hgood.congr_ptr rfl (fun a ha => ?_) rfl rfl
        have ha : a ≠ bp := ne_of_mem_of_not_mem (mem_of_split hl hl' ha) hbp
        show update (update h.ptr bp (h.ptr q)) p (update h.ptr bp (h.ptr q) bp) a =
          update h.ptr p (h.ptr q) a
        rw [update_self]
        by_cases hap : a = p
        · rw [hap, update_self, update_self]
        · rw [update_of_ne hap, update_of_ne hap, update_of_ne ha]
      · have hlt := (hh.order (s := s ++ [p]) (by simpa using hl)).2 b hb
        show bp + 8 * update h.size bp _ bp < b
        rw [hself]
        simp only [Heap.limit] at hlt hq
        omega
      · show h.size bp ≤ update h.size bp _ bp
        rw [hself]
        omega
  · rw [Malloc.joinUpper, if_neg hq]
    refine ⟨list, t, hl, ?_, ?_, fun _ _ => rfl, le_refl _, le_refl _⟩
    · refine hh.congr_ptr rfl (fun a ha => ?_) rfl rfl
      have ha : a ≠ bp := ne_of_mem_of_not_mem ha hbp
      show update (update h.ptr bp (h.ptr p)) p (update h.ptr bp (h.ptr p) bp) a = h.ptr a
      rw [update_self]
      by_cases hap : a = p
      · rw [hap, update_self]
      · rw [update_of_ne hap, update_of_ne ha]
    · intro b hb
      show h.limit bp < b
      cases t with
      | nil => cases hb
      | cons q t =>
        rw [hhead, List.headD_cons] at hq
        rcases List.mem_cons.1 hb with rfl | hb'
        · exact lt_of_le_of_ne (hupper b hb) hq
        · have hlt := (hh.order (s := s ++ [p]) (by simpa using hl)).2 b hb'
          have hle := hupper q List.mem_cons_self
          simp only [Heap.limit] at hlt hle ⊢
          omega

/-- After `bp` has its pointer, `p` takes it or leads to it. -/
theorem joinLower (hh : Good base (h.setPtr p (h.ptr bp)) list (bp :: own))
    (hl : base :: list = s ++ p :: t) (hp : h.limit p ≤ bp) (ht : ∀ b ∈ t, h.limit bp < b) :
    ∃ list', Good base (joinLower h bp p) list' own ∧ p ∈ base :: list' ∧
      (∀ a ∈ own, (joinLower h bp p).size a = h.size a) ∧
      (∃ a ∈ list', h.size bp ≤ (joinLower h bp p).size a) ∧ list'.length ≤ list.length + 1 := by
  by_cases hbp : h.limit p = bp
  · have hgood := hh.extend hl hbp ht
    rw [Malloc.joinLower, if_pos hbp]
    have hplist : p ∈ list := by
      have hmem : p ∈ base :: list := by simp [hl]
      refine (List.mem_cons.1 hmem).resolve_left ?_
      rintro rfl
      have hempty : h.size p = 0 := hh.empty
      have hblock := hh.blocks.block bp (by simp)
      rw [Heap.limit, hempty] at hbp
      omega
    refine ⟨list, hgood, by simp [hl], fun a ha => ?_, ⟨p, hplist, ?_⟩, by omega⟩
    · refine update_of_ne ?_ ..
      rintro rfl
      exact List.disjoint_of_nodup_append hgood.blocks.nodup hplist ha
    · show h.size bp ≤ update h.size p _ p
      rw [update_self]
      omega
  · obtain ⟨list', hl', hgood⟩ := hh.insert hl (lt_of_le_of_ne hp hbp) ht
    have hlength := congrArg List.length hl'
    have hlength' := congrArg List.length hl
    simp only [List.length_cons, List.length_append] at hlength hlength'
    rw [Malloc.joinLower, if_neg hbp]
    refine ⟨list', ?_, by simp [hl'], fun _ _ => rfl, ⟨bp, ?_, le_refl _⟩, by omega⟩
    · refine hgood.congr_ptr rfl (fun a ha => ?_) rfl rfl
      show update h.ptr p bp a =
        update (update (update h.ptr p (h.ptr bp)) bp (update h.ptr p (h.ptr bp) p)) p bp a
      by_cases hap : a = p
      · rw [hap, update_self, update_self]
      rw [update_of_ne hap, update_of_ne hap, update_self]
      by_cases hab : a = bp
      · rw [hab, update_self]
      · rw [update_of_ne hab, update_of_ne hap]
    · have hmem : bp ∈ base :: list' := by simp [hl']
      refine (List.mem_cons.1 hmem).resolve_left ?_
      rintro rfl
      exact hh.notMem_own.1 List.mem_cons_self

/-- `free` of a block that is not on the list. -/
theorem free (hh : Good base h list (bp :: own)) (hp : Entered base h list) {fuel : ℕ}
    (hfuel : list.length + 1 < fuel) :
    ∃ h' list', free fuel h (bp + 8) = some h' ∧ Good base h' list' own ∧ Entered base h' list' ∧
      (∀ a ∈ own, h'.size a = h.size a) ∧ (∃ a ∈ list', h.size bp ≤ h'.size a) ∧
      list'.length ≤ list.length + 1 ∧ h'.brk = h.brk ∧ h'.units = h.units := by
  obtain ⟨p, hp, hfreep⟩ := hp
  obtain ⟨q, s, t, hwalk, hl, hq, ht⟩ := hh.walk_place hp hfuel
  obtain ⟨list₁, t₁, hl₁, hgood₁, ht₁, hsize₁, hbp₁, hlength₁⟩ := hh.joinUpper hl ht
  have hlimit : (Malloc.joinUpper h bp q).limit q ≤ bp := by
    rw [limit_congr (hsize₁ q hq.ne)]
    exact hh.limit_le (by simp [hl]) hq
  obtain ⟨list₂, hgood₂, hq₂, hsize₂, ⟨a, ha, hbig⟩, hlength₂⟩ := hgood₁.joinLower hl₁ hlimit ht₁
  set joined := Malloc.joinLower (Malloc.joinUpper h bp q) bp q with hjoined
  have hmemory : joined.brk = h.brk ∧ joined.units = h.units := by
    rw [hjoined, joinLower_brk, joinLower_units, joinUpper_brk, joinUpper_units]
    exact ⟨rfl, rfl⟩
  refine ⟨{ joined with freep := some q }, list₂, ?_,
    hgood₂.congr_ptr rfl (fun _ _ => rfl) rfl rfl, ⟨q, hq₂, rfl⟩, fun a ha => ?_,
    ⟨a, ha, hbp₁.trans hbig⟩, by omega, hmemory⟩
  · rw [Malloc.free, hfreep, Nat.add_sub_cancel, Option.bind_eq_bind, Option.bind_some, hwalk]
    rfl
  · have hne : a ≠ bp := ne_of_mem_of_not_mem ha hh.notMem_own.2
    exact (hsize₂ a ha).trans (hsize₁ a hne)

end Good

end Xv6Container.Malloc
