import Xv6Container.Malloc.Requests

/-! Any program that frees only what it has and writes only there: no call gets lost, blocks stay
apart, and no memory leaks. -/

namespace Xv6Container.Malloc

open Function Lib

variable {base : ℕ} {s t : State} {h : Heap} {list own : List ℕ}

/-- The headers of the blocks that the program has. -/
def headers (live : List (ℕ × ℕ)) : List ℕ := live.map fun b => b.1 - 8

/-- The list `list` of free blocks, from `base` on. Before the first call there is none. -/
def FreeList (base : ℕ) (h : Heap) (list : List ℕ) : Prop :=
  (h.freep = none ∧ list = []) ∨ (Around h.ptr base list ∧ Entered base h list)

structure Sound (base : ℕ) (s : State) (list : List ℕ) : Prop where
  live_apart : (headers s.live).Pairwise (Apart s.heap)
  free_apart : ∀ a ∈ headers s.live, ∀ b ∈ list, Apart s.heap a b
  /-- Request and header fit. -/
  large : ∀ b ∈ s.live, 8 ≤ b.1 ∧ b.2 + 8 ≤ 8 * s.heap.size (b.1 - 8)
  freeList : FreeList base s.heap list
  /-- Addresses increase from `base` on. -/
  sorted : (base :: list).Pairwise (· < ·)
  /-- Between two free blocks there is a gap. -/
  spaced : Spaced s.heap list
  units : total s.heap list + total s.heap (headers s.live) = s.heap.units

/-- What the steps keep. -/
structure Inv (base : ℕ) (s : State) (list : List ℕ) : Prop where
  good : Good base (start base s.heap).1 list (headers s.live)
  entered : Entered base (start base s.heap).1 list
  low : base + 8 ≤ s.heap.brk
  fresh : s.heap.freep = none → s.live = [] ∧ s.heap.units = 0
  large : ∀ b ∈ s.live, 8 ≤ b.1 ∧ b.2 + 8 ≤ 8 * s.heap.size (b.1 - 8)

/-! ### The first call -/

theorem start_of_freep {p : ℕ} (hfreep : h.freep = some p) : start base h = (h, p) := by
  rw [start, hfreep]

theorem start_fresh (hfreep : h.freep = none) (hunits : h.units = 0) :
    Good base (start base h).1 [] [] := by
  rw [start, hfreep]
  refine ⟨?_, List.pairwise_singleton _ _, update_self .., ?_⟩
  · exact Links.cons.2 ⟨update_self .., List.isChain_singleton base⟩
  · constructor
    · intro a ha
      exact nomatch ha
    · exact .nil
    · exact hunits.symm

theorem start_freep (base : ℕ) (h : Heap) : (start base h).1.freep = some (start base h).2 := by
  rcases hfreep : h.freep with _ | p
  · rw [start, hfreep]
  · rw [start_of_freep hfreep, hfreep]

theorem start_brk (base : ℕ) (h : Heap) : (start base h).1.brk = h.brk := by
  rw [start]
  split <;> rfl

theorem start_units (base : ℕ) (h : Heap) : (start base h).1.units = h.units := by
  rw [start]
  split <;> rfl

/-- A heap with a list needs no start. -/
theorem Inv.of_good {live : List (ℕ × ℕ)} (hh : Good base h list (headers live))
    (hp : Entered base h list) (low : base + 8 ≤ h.brk)
    (large : ∀ b ∈ live, 8 ≤ b.1 ∧ b.2 + 8 ≤ 8 * h.size (b.1 - 8)) : Inv base ⟨h, live⟩ list := by
  obtain ⟨p, hmem, hfreep⟩ := hp
  have hstart : start base h = (h, p) := start_of_freep hfreep
  constructor
  · rw [hstart]
    exact hh
  · rw [hstart]
    exact ⟨p, hmem, hfreep⟩
  · exact low
  · intro hnone
    exact absurd (hfreep.symm.trans hnone) (Option.some_ne_none p)
  · exact large

namespace Inv

/-! ### Steps -/

theorem start_eq (hs : Inv base s list) {b : ℕ × ℕ} (hb : b ∈ s.live) :
    (start base s.heap).1 = s.heap := by
  rcases hfreep : s.heap.freep with _ | p
  · rw [(hs.fresh hfreep).1] at hb
    exact nomatch hb
  · rw [start_of_freep hfreep]

theorem length_lt (hs : Inv base s list) : 2 * list.length + 3 < fuel s.heap := by
  have hlength := length_le hs.good.blocks
  rw [start_units, List.length_append] at hlength
  rw [fuel]
  omega

theorem malloc (hs : Inv base s list) {nbytes : ℕ} {r : Option ℕ}
    (ha : Allowed s (.malloc nbytes r)) :
    ∃ t list', step base s (.malloc nbytes r) = some t ∧ Inv base t list' := by
  obtain ⟨hsmall, hr⟩ := ha
  have hn : nunits nbytes = (nbytes + 7) / 8 + 1 := by
    rw [nunits]
    omega
  obtain ⟨p, hmem, hfreep⟩ := hs.entered
  have hp : (start base s.heap).2 = p := Option.some.inj ((start_freep base _).symm.trans hfreep)
  have hbrk := start_brk base s.heap
  obtain ⟨h', list', res, hloop, hentered, hsize, hbrk', hres⟩ :=
    hs.good.mallocLoop (n := nunits nbytes) (o := r) hmem hfreep (hbrk.symm ▸ hs.low)
      (hbrk.symm ▸ hr) (by omega) hs.length_lt
  subst hp
  have hcall : Malloc.malloc base (fuel s.heap) s.heap nbytes [r] = some (h', res) := hloop
  have hlow : base + 8 ≤ h'.brk := by
    have hlow := hs.low
    omega
  have hlarge : ∀ b ∈ s.live, 8 ≤ b.1 ∧ b.2 + 8 ≤ 8 * h'.size (b.1 - 8) := by
    intro b hb
    have hheader : b.1 - 8 ∈ headers s.live := List.mem_map.2 ⟨b, hb, rfl⟩
    rw [hsize _ hheader, hs.start_eq hb]
    exact hs.large b hb
  rw [step, hcall]
  rcases hres with ⟨rfl, hgood⟩ | ⟨b, rfl, hgood, hb⟩
  · exact ⟨_, list', rfl, .of_good hgood hentered hlow hlarge⟩
  · refine ⟨_, list', rfl, .of_good ?_ hentered hlow ?_⟩
    · rw [headers, List.map_cons, Nat.add_sub_cancel]
      exact hgood
    · rw [List.forall_mem_cons]
      refine ⟨⟨by omega, ?_⟩, hlarge⟩
      rw [Nat.add_sub_cancel, hb, hn]
      omega

theorem free (hs : Inv base s list) {b : ℕ × ℕ} (hb : b ∈ s.live) :
    ∃ t list', step base s (.free b) = some t ∧ Inv base t list' := by
  have hgood := hs.good
  have hentered := hs.entered
  rw [hs.start_eq hb] at hgood hentered
  have hlive : (headers s.live).Perm ((b.1 - 8) :: headers (s.live.erase b)) :=
    (List.perm_cons_erase hb).map _
  have hfuel := hs.length_lt
  obtain ⟨h', list', hfree, hgood', hentered', hsize, -, -, hbrk, -⟩ :=
    (hgood.perm hlive).free hentered (by omega : list.length + 1 < fuel s.heap)
  rw [Nat.sub_add_cancel (hs.large b hb).1] at hfree
  refine ⟨⟨h', s.live.erase b⟩, list', ?_, .of_good hgood' hentered' (hbrk.symm ▸ hs.low) ?_⟩
  · rw [step, hfree]
    rfl
  · intro c hc
    have hheader : c.1 - 8 ∈ headers (s.live.erase b) := List.mem_map.2 ⟨c, hc, rfl⟩
    rw [hsize _ hheader]
    exact hs.large c (List.mem_of_mem_erase hc)

/-- What the program writes lies in none of the headers. -/
theorem write (hs : Inv base s list) {ptr size : ℕ → ℕ} (ha : Allowed s (.write ptr size)) :
    Inv base { s with heap := { s.heap with ptr := ptr, size := size } } list := by
  rcases hfreep : s.heap.freep with _ | p
  · have hsame : ptr = s.heap.ptr ∧ size = s.heap.size := by
      have hnone : ∀ b ∈ s.live, False := by simp [(hs.fresh hfreep).1]
      have hall := fun p => ha p fun b hb => (hnone b hb).elim
      exact ⟨funext fun p => (hall p).1, funext fun p => (hall p).2⟩
    rw [hsame.1, hsame.2]
    exact hs
  have hgood := hs.good
  have hentered := hs.entered
  rw [start_of_freep hfreep] at hgood hentered
  have hheader : ∀ a ∈ base :: (list ++ headers s.live),
      ptr a = s.heap.ptr a ∧ size a = s.heap.size a := by
    intro a hmem
    refine ha a fun b hb => ?_
    have hbmem : b.1 - 8 ∈ list ++ headers s.live :=
      List.mem_append_right list (List.mem_map.2 ⟨b, hb, rfl⟩)
    have hblock := hgood.blocks.block (b.1 - 8) hbmem
    have hlarge := hs.large b hb
    rcases List.mem_cons.1 hmem with rfl | hmem
    · omega
    by_cases hab : a = b.1 - 8
    · omega
    · have hapart : Apart s.heap a (b.1 - 8) := hgood.blocks.apart.forall hmem hbmem hab
      have hblocka := hgood.blocks.block a hmem
      simp only [Apart, Heap.limit] at hapart
      omega
  refine of_good ?_ hentered hs.low fun b hb => ?_
  · have hptr : Good base { s.heap with ptr := ptr } list (headers s.live) := by
      refine hgood.congr_ptr rfl (fun a ha => (hheader a ?_).1) rfl rfl
      exact List.mem_append_left (headers s.live) ha
    have hsize : ∀ a ∈ base :: (list ++ headers s.live), size a = s.heap.size a :=
      fun a ha => (hheader a ha).2
    refine hptr.congr_size (fun a ha => hsize a (List.mem_append_left _ ha)) rfl ?_
    exact hgood.blocks.congr (fun a ha => hsize a (List.mem_cons_of_mem base ha)) rfl rfl
  · have hmem : b.1 - 8 ∈ base :: (list ++ headers s.live) :=
      List.mem_cons_of_mem base (List.mem_append_right list (List.mem_map.2 ⟨b, hb, rfl⟩))
    show 8 ≤ b.1 ∧ b.2 + 8 ≤ 8 * size (b.1 - 8)
    rw [(hheader _ hmem).2]
    exact hs.large b hb

theorem sound (hs : Inv base s list) : Sound base s list := by
  have hgood := hs.good
  rcases hfreep : s.heap.freep with _ | p
  · have hfresh := hs.fresh hfreep
    have hlength := length_le hgood.blocks
    rw [start_units, hfresh.2, List.length_append] at hlength
    have hlist : list = [] := List.eq_nil_of_length_eq_zero (by omega)
    subst hlist
    constructor <;> simp [headers, hfresh, FreeList, hfreep, Spaced, total]
  · rw [start_of_freep hfreep] at hgood
    have hentered := hs.entered
    rw [start_of_freep hfreep] at hentered
    have hapart := List.pairwise_append.1 hgood.blocks.apart
    constructor
    · exact hapart.2.1
    · intro a ha b hb
      exact (hapart.2.2 b hb a ha).symm
    · exact hs.large
    · exact .inr ⟨hgood.ring, hentered⟩
    · exact hgood.sorted
    · exact (List.pairwise_cons.1 hgood.spaced).2
    · rw [← hgood.blocks.units, total, total, total, List.map_append, List.sum_append]

end Inv

theorem Reach.inv (hs : Reach base s) : ∃ list, Inv base s list := by
  induction hs with
  | @start h hbase hfreep hunits =>
    refine ⟨[], start_fresh hfreep hunits, ⟨_, ?_, start_freep base h⟩, hbase, fun _ => ⟨rfl, hunits⟩,
      fun b hb => nomatch hb⟩
    rw [Malloc.start, hfreep]
    exact List.mem_cons_self
  | @step s t a _ ha ht ih =>
    obtain ⟨list, hs⟩ := ih
    cases a with
    | malloc nbytes r =>
      obtain ⟨t', list', ht', hinv⟩ := hs.malloc ha
      exact ⟨list', Option.some.inj (ht'.symm.trans ht) ▸ hinv⟩
    | free b =>
      obtain ⟨t', list', ht', hinv⟩ := hs.free ha
      exact ⟨list', Option.some.inj (ht'.symm.trans ht) ▸ hinv⟩
    | write ptr size => exact ⟨list, Option.some.inj ht ▸ hs.write ha⟩

/-- In every state that a program reaches, its blocks are apart from each other and from the free
ones, and large enough; the free ones stand on one ring in address order, with gaps; together they
are what `sbrk` returned. Every further call returns. -/
theorem umalloc_safe (hs : Reach base s) :
    (∃ list, Sound base s list) ∧ ∀ a, Allowed s a → ∃ t, step base s a = some t := by
  obtain ⟨list, hinv⟩ := hs.inv
  refine ⟨⟨list, hinv.sound⟩, fun a ha => ?_⟩
  cases a with
  | malloc nbytes r =>
    obtain ⟨t, -, ht, -⟩ := hinv.malloc ha
    exact ⟨t, ht⟩
  | free b =>
    obtain ⟨t, -, ht, -⟩ := hinv.free ha
    exact ⟨t, ht⟩
  | write ptr size => exact ⟨_, rfl⟩

/-- Two blocks from the first 4096 units, and the first of them freed. -/
theorem umalloc_safe_freed :
    ∃ s, Reach 4096 s ∧ s.live = [(45000, 30)] ∧ ∃ list, Sound 4096 s list := by
  have hfirst : (step 4096 ⟨⟨fun _ => 0, fun _ => 0, none, 12288, 0⟩, []⟩
      (.malloc 10 (some 12288))).map State.live = some [(45040, 10)] := by decide +kernel
  have hsecond : ((step 4096 ⟨⟨fun _ => 0, fun _ => 0, none, 12288, 0⟩, []⟩
      (.malloc 10 (some 12288))).bind fun s => step 4096 s (.malloc 30 none)).map State.live =
        some [(45000, 30), (45040, 10)] := by decide +kernel
  obtain ⟨s, hs, -⟩ := Option.map_eq_some_iff.1 hfirst
  rw [hs, Option.bind_some] at hsecond
  obtain ⟨t, ht, hlive'⟩ := Option.map_eq_some_iff.1 hsecond
  have hreach : Reach 4096 s := by
    refine .step (a := .malloc 10 (some 12288)) (.start ?_ rfl rfl) ⟨by decide, ?_⟩ hs
    · decide
    · rintro p ⟨⟩
      exact le_refl _
  have hreach : Reach 4096 t :=
    .step (a := .malloc 30 none) hreach ⟨by decide, fun p hp => nomatch hp⟩ ht
  have hfree : Allowed t (.free (45040, 10)) := by
    show (45040, 10) ∈ t.live
    rw [hlive']
    decide
  obtain ⟨u, hu⟩ := (umalloc_safe hreach).2 _ hfree
  have hreach' : Reach 4096 u := .step hreach hfree hu
  refine ⟨u, hreach', ?_, (umalloc_safe hreach').1⟩
  obtain ⟨h, -, rfl⟩ := Option.map_eq_some_iff.1 hu
  show t.live.erase _ = _
  rw [hlive']
  decide

end Xv6Container.Malloc
