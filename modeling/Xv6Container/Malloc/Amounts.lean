import Xv6Container.Malloc.Programs
import Xv6Container.Malloc.Sbrk

/-! Which requests `malloc` serves as it should. The rounding wraps around for the seven largest
requests, and from 2^31 bytes on the amount that `morecore` asks for is negative, which the kernel
takes for a wish to shrink. -/

namespace Xv6Container.Malloc

open Function Lib
open Memory (KERNBASE UINT addSize)

variable {base p q n fuel nbytes : ℕ} {h h' : Heap} {S : Set ℕ} {got : ℕ → Prop}
  {list own : List ℕ} {rs : List (Option ℕ)} {res : Option ℕ} {room : ℕ → ℕ → Bool}
  {s t : Process}

/-! ### The call without the kernel -/

/-- The units that `morecore` asks for. -/
def most (nu : ℕ) : ℕ := if nu < 4096 then 4096 else nu

namespace Covers

theorem morecore (hc : Covers got h S) (hS : ∀ p, h.freep = some p → p ∈ S) {r : ℕ}
    (hr : ∀ x, r ≤ x → x < r + 8 * most n → got x)
    (hmore : morecore fuel h n (some r) = some (h', res)) :
    Covers got h' (insert r S) ∧ h'.freep = res ∧ ∀ p, h'.freep = some p → p ∈ insert r S := by
  have hcov : Covers got ((Malloc.sbrk h (most n) r).setSize r (most n)) S := by
    refine ⟨hc.ptr, fun a ha x h1 h2 => ?_⟩
    by_cases har : a = r
    · subst har
      rw [limit_setSize] at h2
      exact hr x h1 h2
    · rw [limit_congr (update_of_ne har ..)] at h2
      exact hc.bytes a ha x h1 h2
  have hblock : Covered got ((Malloc.sbrk h (most n) r).setSize r (most n)) r := by
    intro x h1 h2
    rw [limit_setSize] at h2
    exact hr x h1 h2
  simp only [Malloc.morecore, Option.bind_eq_bind, Option.bind_eq_some_iff, Option.pure_def,
    Option.some.injEq, Prod.mk.injEq] at hmore
  obtain ⟨h₁, hfree, rfl, rfl⟩ := hmore
  obtain ⟨hcov', hfreep⟩ := hcov.free hblock hS hfree
  exact ⟨hcov', rfl, hfreep⟩

/-- `malloc` returns a block of the size asked for, in the memory of the list or in what it got. -/
theorem mallocLoop (hc : Covers got h S) (hS : ∀ p, h.freep = some p → p ∈ S) (hp : p ∈ S)
    (hr : ∀ r, some r ∈ rs → ∀ x, r ≤ x → x < r + 8 * most n → got x) {ap : ℕ}
    (hloop : mallocLoop n fuel rs h q p = some (h', some ap)) :
    8 ≤ ap ∧ h'.size (ap - 8) = n ∧ Covered got h' (ap - 8) := by
  induction fuel generalizing rs h q p S with
  | zero => cases hloop
  | succ fuel ih =>
    rw [Malloc.mallocLoop.eq_def] at hloop
    dsimp only at hloop
    split_ifs at hloop with hlarge hfreep
    · cases htake : Malloc.take h n q p with
      | mk h₁ ap₁ =>
        rw [htake] at hloop
        cases hloop
        exact hc.take hp hlarge htake
    · cases rs with
      | nil => cases hloop
      | cons r rs =>
        dsimp only at hloop
        cases r with
        | none => cases hloop
        | some r =>
          cases hmore : Malloc.morecore fuel h n (some r) with
          | none =>
            rw [hmore] at hloop
            cases hloop
          | some more =>
            obtain ⟨h₁, res₁⟩ := more
            rw [hmore] at hloop
            obtain ⟨hc₁, hres, hS₁⟩ := hc.morecore hS (hr r List.mem_cons_self) hmore
            cases res₁ with
            | none => cases hloop
            | some p₁ =>
              exact ih hc₁ hS₁ (hc₁.ptr _ (hS₁ _ hres))
                (fun r' hr' => hr r' (List.mem_cons_of_mem _ hr')) hloop
    · exact ih hc hS (hc.ptr _ hp) hr hloop

end Covers

/-- A block that is large enough is found on the list. -/
theorem Good.mallocLoop_found (hh : Good base h list own) (hp : p ∈ base :: list)
    (hfreep : h.freep = some p) {a : ℕ} (ha : a ∈ list) (hbig : n ≤ h.size a)
    (hfuel : list.length < fuel) :
    ∃ h' ap, Malloc.mallocLoop n fuel [] h p (h.ptr p) = some (h', some ap) := by
  obtain ⟨j, hj, hlarge, hsmall⟩ := hh.found hp ha hbig
  obtain ⟨f, hf⟩ : ∃ f, fuel = f + 1 + j := ⟨fuel - 1 - j, by omega⟩
  rw [hf, mallocLoop_walk hfreep hsmall, Malloc.mallocLoop, if_pos hlarge]
  exact ⟨_, _, rfl⟩

/-! ### The call with the kernel -/

namespace Process

/-- Without a call of `sbrk` the kernel has no part in it. -/
theorem mallocLoop_of_nil (hloop : Malloc.mallocLoop n fuel [] h q p = some (h', res)) :
    mallocLoop room n fuel { s with heap := h } q p = some ({ s with heap := h' }, res) := by
  induction fuel generalizing h q p with
  | zero => cases hloop
  | succ fuel ih =>
    rw [Malloc.mallocLoop.eq_def] at hloop
    rw [mallocLoop]
    dsimp only at hloop ⊢
    split_ifs at hloop ⊢ with hlarge hfreep
    · cases hloop
      rfl
    · exact ih hloop

/-- If `sbrk` is called, the kernel answers. -/
theorem mallocLoop_of_call
    (hloop : Malloc.mallocLoop n fuel [(s.sbrk room (amount n)).2] h q p = some (h', res)) :
    Malloc.mallocLoop n fuel [] h q p = some (h', res) ∨
    mallocLoop room n fuel { s with heap := h } q p =
      some ({ (s.sbrk room (amount n)).1 with heap := h' }, res) := by
  induction fuel generalizing h q p with
  | zero => cases hloop
  | succ fuel ih =>
    rw [Malloc.mallocLoop.eq_def] at hloop
    rw [mallocLoop, Malloc.mallocLoop]
    dsimp only at hloop ⊢
    split_ifs at hloop ⊢ with hlarge hfreep
    · exact .inl hloop
    · refine .inr ?_
      have hcall : sbrk room { s with heap := h } (amount n) =
          ({ (s.sbrk room (amount n)).1 with heap := h }, (s.sbrk room (amount n)).2) := by
        rw [sbrk, sbrk]
        dsimp only
        split <;> rfl
      rw [morecore, hcall]
      dsimp only
      cases hmore : Malloc.morecore fuel h n (s.sbrk room (amount n)).2 with
      | none =>
        rw [hmore] at hloop
        cases hloop
      | some more =>
        obtain ⟨h₁, res₁⟩ := more
        rw [hmore] at hloop
        rw [Option.map_some]
        cases res₁ with
        | none =>
          cases hloop
          rfl
        | some p₁ => exact mallocLoop_of_nil hloop
    · exact ih hloop

/-! ### What is asked of the kernel -/

theorem morecore_asked (hmore : morecore room fuel s n = some (t, res)) :
    amount n ∈ t.asked ∧ ∀ m ∈ s.asked, m ∈ t.asked := by
  simp only [morecore, Option.map_eq_some_iff, Prod.mk.injEq] at hmore
  obtain ⟨more, -, rfl, -⟩ := hmore
  rw [sbrk]
  dsimp only
  split
  · exact ⟨List.mem_cons_self, fun m hm => List.mem_cons_of_mem _ hm⟩
  · exact ⟨List.mem_cons_self, fun m hm => List.mem_cons_of_mem _ hm⟩

theorem mallocLoop_asked (hloop : mallocLoop room n fuel s q p = some (t, res)) :
    ∀ m ∈ s.asked, m ∈ t.asked := by
  induction fuel generalizing s q p with
  | zero => cases hloop
  | succ fuel ih =>
    rw [mallocLoop] at hloop
    split_ifs at hloop with hlarge hfreep
    · cases hloop
      exact fun m => id
    · cases hmore : morecore room fuel s n with
      | none =>
        rw [hmore] at hloop
        cases hloop
      | some more =>
        obtain ⟨s', res'⟩ := more
        rw [hmore] at hloop
        have hmono := (morecore_asked hmore).2
        cases res' with
        | none =>
          cases hloop
          exact hmono
        | some p' => exact fun m hm => ih hloop m (hmono m hm)
    · exact ih hloop

/-- If no block of the list is large enough, or null is returned, `sbrk` has been asked. -/
theorem mallocLoop_asks (hloop : mallocLoop room n fuel s q p = some (t, res))
    (hno : (∀ a ∈ S, s.heap.ptr a ∈ S ∧ s.heap.size a < n) ∧ p ∈ S ∨ res = none) :
    amount n ∈ t.asked := by
  induction fuel generalizing s q p with
  | zero => cases hloop
  | succ fuel ih =>
    rw [mallocLoop] at hloop
    split_ifs at hloop with hlarge hfreep
    · cases hloop
      obtain ⟨hsmall, hp⟩ | h := hno
      · exact absurd (hsmall p hp).2 (Nat.not_lt.2 hlarge)
      · cases h
    · cases hmore : morecore room fuel s n with
      | none =>
        rw [hmore] at hloop
        cases hloop
      | some more =>
        obtain ⟨s', res'⟩ := more
        rw [hmore] at hloop
        have hask := (morecore_asked hmore).1
        cases res' with
        | none =>
          cases hloop
          exact hask
        | some p' => exact mallocLoop_asked hloop _ hask
    · exact ih hloop (hno.imp_left fun h => ⟨h.1, (h.1 p h.2).1⟩)

/-- The block that is returned has the units of the request, as `malloc` has rounded it. -/
theorem mallocLoop_size {ap : ℕ} (hloop : mallocLoop room n fuel s q p = some (t, some ap)) :
    8 ≤ ap ∧ t.heap.size (ap - 8) = n := by
  induction fuel generalizing s q p with
  | zero => cases hloop
  | succ fuel ih =>
    rw [mallocLoop] at hloop
    split_ifs at hloop with hlarge hfreep
    · have hall : Covers (fun _ => True) s.heap Set.univ :=
        ⟨fun _ _ => trivial, fun _ _ _ _ _ => trivial⟩
      cases htake : take s.heap n q p with
      | mk h₁ ap₁ =>
        rw [htake] at hloop
        cases hloop
        obtain ⟨hap, hsize, -⟩ := hall.take trivial hlarge htake
        exact ⟨hap, hsize⟩
    · cases hmore : morecore room fuel s n with
      | none =>
        rw [hmore] at hloop
        cases hloop
      | some more =>
        obtain ⟨s', res'⟩ := more
        rw [hmore] at hloop
        cases res' with
        | none => cases hloop
        | some p' => exact ih hloop
    · exact ih hloop

end Process

/-! ### Amounts -/

theorem nunits_of_le (hn : nbytes ≤ 2 ^ 32 - 8) : nunits nbytes = (nbytes + 7) / 8 + 1 := by
  rw [nunits]
  omega

/-- The rounding has wrapped around. -/
theorem nunits_of_lt (hn : 2 ^ 32 - 8 < nbytes) (hn' : nbytes < 2 ^ 32) : nunits nbytes = 1 := by
  rw [nunits]
  omega

theorem amount_of_lt (hn : 8 * most n < 2 ^ 31) : Process.amount n = 8 * most n := by
  have hmod : 8 * most n % UINT = 8 * most n := Nat.mod_eq_of_lt (by dsimp only [UINT]; omega)
  change toInt (8 * most n % UINT) = _
  rw [hmod, toInt, if_pos hn]
  push_cast
  rfl

theorem amount_nonpos (hn : 2 ^ 31 ≤ 8 * most n) (hn' : n ≤ 2 ^ 29) : Process.amount n ≤ 0 := by
  change toInt (8 * most n % UINT) ≤ 0
  unfold toInt most at *
  dsimp only [UINT]
  split_ifs at * <;> omega

theorem le_most (n : ℕ) : n ≤ most n ∧ 0 < most n := by
  unfold most
  split_ifs <;> omega

/-- The kernel grows a process by a positive amount, or refuses. -/
theorem growproc_pos (room : ℕ → ℕ → Bool) {sz a : ℕ} (hsz : sz < KERNBASE) (ha : 0 < a)
    (ha' : a < 2 ^ 31) :
    growproc room sz a = none ∨ growproc room sz a = some (sz + a) ∧ sz + a < KERNBASE := by
  have hsum : addSize sz a = sz + a := by
    unfold addSize
    dsimp only [KERNBASE, UINT] at *
    omega
  have halloc : allocuvm room sz (sz + a) = 0 ∨
      allocuvm room sz (sz + a) = sz + a ∧ sz + a < KERNBASE := by
    unfold allocuvm
    split_ifs <;> omega
  rw [growproc, if_pos (by omega), hsum]
  dsimp only
  obtain h | ⟨h, hlt⟩ := halloc
  · exact .inl (if_pos h)
  · rw [h, if_neg (by omega)]
    exact .inr ⟨rfl, hlt⟩

/-! ### The requests that are served -/

/-- A process with a heap in order: the free blocks `list` lie in the memory `got`, which came from
`sbrk`, and the process is not smaller than the heap. -/
structure Ready (base : ℕ) (got : ℕ → Prop) (s : Process) (list own : List ℕ) : Prop where
  good : Good base (start base s.heap).1 list own
  entered : Entered base (start base s.heap).1 list
  low : base + 8 ≤ s.heap.brk
  brk : s.heap.brk ≤ s.sz
  size : s.sz < KERNBASE
  covered : ∀ a ∈ list, Covered got (start base s.heap).1 a
  asked : s.asked = []

/-- What a call for `nbytes` bytes is to do: each amount that it asks of `sbrk` is enough for the
request and its header, and what it returns is null or a block with room for the request, in memory
that came from `sbrk` before the call or during it. -/
structure Serves (got : ℕ → Prop) (sz nbytes : ℕ) (t : Process) (res : Option ℕ) : Prop where
  asked : ∀ m ∈ t.asked, (nbytes : ℤ) + 8 ≤ m
  block : ∀ ap, res = some ap → 8 ≤ ap ∧ nbytes + 8 ≤ 8 * t.heap.size (ap - 8) ∧
    Covered (fun x => got x ∨ sz ≤ x ∧ x < t.sz) t.heap (ap - 8)

namespace Ready

theorem covers (hs : Ready base got s list own) :
    Covers got (start base s.heap).1 {a | a ∈ base :: list} := by
  refine ⟨fun a ha => hs.good.ring.mem ha, fun a ha => ?_⟩
  rcases List.mem_cons.1 ha with rfl | ha
  · intro x h1 h2
    rw [Heap.limit, hs.good.empty] at h2
    omega
  · exact hs.covered a ha

theorem freep_eq (hs : Ready base got s list own) :
    (start base s.heap).1.freep = some (start base s.heap).2 ∧
      (start base s.heap).2 ∈ base :: list := by
  have hstart := start_freep base s.heap
  obtain ⟨p, hp, hfreep⟩ := hs.entered
  obtain rfl := Option.some.inj (hstart.symm.trans hfreep)
  exact ⟨hfreep, hp⟩

theorem length_lt (hs : Ready base got s list own) : 2 * list.length + 3 < Malloc.fuel s.heap := by
  have hlength := length_le hs.good.blocks
  rw [start_units, List.length_append] at hlength
  rw [Malloc.fuel]
  omega

/-- What a run returns that has memory for the block. -/
theorem block (hs : Ready base got s list own) (hn : nbytes ≤ 2 ^ 32 - 8) {got' : ℕ → Prop} {ap : ℕ}
    (hgot : ∀ x, got x → got' x)
    (hr : ∀ r, some r ∈ rs → ∀ x, r ≤ x → x < r + 8 * most (nunits nbytes) → got' x)
    (hloop : Malloc.mallocLoop (nunits nbytes) fuel rs (start base s.heap).1 (start base s.heap).2
      ((start base s.heap).1.ptr (start base s.heap).2) = some (h', some ap)) :
    8 ≤ ap ∧ nbytes + 8 ≤ 8 * h'.size (ap - 8) ∧ Covered got' h' (ap - 8) := by
  obtain ⟨hfreep, hp⟩ := hs.freep_eq
  have hS : ∀ q, (start base s.heap).1.freep = some q → q ∈ {a | a ∈ base :: list} := by
    intro q hq
    rw [hfreep] at hq
    cases hq
    exact hp
  obtain ⟨hap, hsize, hcov⟩ := (hs.covers.mono hgot).mallocLoop hS (hs.good.ring.mem hp) hr hloop
  refine ⟨hap, ?_, hcov⟩
  rw [hsize, nunits_of_le hn]
  omega

/-- A run that does not call `sbrk`. -/
theorem serves_of_nil (hs : Ready base got s list own) (hn : nbytes ≤ 2 ^ 32 - 8)
    (hloop : Malloc.mallocLoop (nunits nbytes) (Malloc.fuel s.heap) [] (start base s.heap).1
      (start base s.heap).2 ((start base s.heap).1.ptr (start base s.heap).2) = some (h', res)) :
    ∃ t res, s.malloc room base (Malloc.fuel s.heap) nbytes = some (t, res) ∧
      Serves got s.sz nbytes t res := by
  refine ⟨_, _, Process.mallocLoop_of_nil hloop, fun m hm => ?_, fun ap hap => ?_⟩
  · have hnil : m ∈ s.asked := hm
    rw [hs.asked] at hnil
    cases hnil
  · exact hs.block hn (fun x => .inl) (fun r hr => absurd hr List.not_mem_nil) (hap ▸ hloop)

/-- The kernel is asked for enough. -/
theorem serves_of_amount (hs : Ready base got s list own) (hn : nbytes ≤ 2 ^ 32 - 8)
    (hsmall : 8 * most (nunits nbytes) < 2 ^ 31) :
    ∃ t res, s.malloc room base (Malloc.fuel s.heap) nbytes = some (t, res) ∧
      Serves got s.sz nbytes t res := by
  obtain ⟨hfreep, hp⟩ := hs.freep_eq
  have hmost := le_most (nunits nbytes)
  have hunits := nunits_of_le hn
  have hamount : Process.amount (nunits nbytes) = (8 * most (nunits nbytes) : ℕ) := by
    rw [amount_of_lt hsmall]
    push_cast
    rfl
  obtain ⟨called, r, hcall⟩ : ∃ called r,
      s.sbrk room (Process.amount (nunits nbytes)) = (called, r) := ⟨_, _, rfl⟩
  -- what the kernel answers
  have hanswer : called.asked = [Process.amount (nunits nbytes)] ∧
      ∀ r', r = some r' → r' = s.sz ∧ called.sz = s.sz + 8 * most (nunits nbytes) := by
    rw [Process.sbrk, hs.asked] at hcall
    dsimp only at hcall
    rw [hamount] at hcall ⊢
    obtain hgrow | ⟨hgrow, -⟩ := growproc_pos room hs.size (by omega : 0 < 8 * most _) hsmall
    · rw [hgrow] at hcall
      cases hcall
      exact ⟨rfl, fun r' hr' => nomatch hr'⟩
    · rw [hgrow] at hcall
      cases hcall
      refine ⟨rfl, fun r' hr' => ?_⟩
      cases hr'
      exact ⟨rfl, rfl⟩
  have hbrk := start_brk base s.heap
  obtain ⟨h', list', res, hloop, -⟩ := hs.good.mallocLoop (o := r) hp hfreep (hbrk.symm ▸ hs.low)
    (fun r' hr' => by rw [hbrk, (hanswer.2 r' hr').1]; exact hs.brk)
    (by omega : 0 < nunits nbytes) hs.length_lt
  have hres : r = (s.sbrk room (Process.amount (nunits nbytes))).2 := by rw [hcall]
  rw [hres] at hloop
  obtain hnil | hrun := Process.mallocLoop_of_call hloop
  · exact hs.serves_of_nil hn hnil
  · rw [hcall] at hrun
    refine ⟨_, _, hrun, fun m hm => ?_, fun ap hap => ?_⟩
    · change m ∈ called.asked at hm
      rw [hanswer.1, List.mem_singleton] at hm
      rw [hm, hamount]
      push_cast
      omega
    · refine hs.block hn (fun x => .inl) (fun r' hr' x h1 h2 => .inr ?_) (hap ▸ hloop)
      rw [List.mem_singleton, hcall] at hr'
      obtain ⟨rfl, hsz⟩ := hanswer.2 r' hr'.symm
      change _ ≤ x ∧ x < called.sz
      omega

end Ready

/-- A process of three pages that has not called `malloc`; `base` is in the second. -/
def fresh : Process := ⟨⟨fun _ => 0, fun _ => 0, none, 12288, 0⟩, 12288, []⟩

theorem ready_fresh : Ready 4096 (fun _ => False) fresh [] [] where
  good := start_fresh rfl rfl
  entered := ⟨_, List.mem_cons_self, rfl⟩
  low := by decide
  brk := le_refl _
  size := by decide
  covered a ha := nomatch ha
  asked := rfl

/-- For half of the address space the kernel is asked to shrink the process; it does nothing, and the
block lies behind the memory of the process. -/
example : (fresh.malloc (fun _ _ => true) 4096 8 0x80000000).map
    (fun r => (r.2, r.1.asked, r.1.sz)) = some (some 12296, [-0x7FFFFFF8], 12288) := by decide +kernel

end Xv6Container.Malloc
