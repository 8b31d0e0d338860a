import Mathlib.Data.Finset.Card
import Mathlib.Data.Fintype.Card
import Xv6Container.Lib.Triple
import Xv6Container.Log.Bio

/-! What the buffer cache is for: a block that is read through it has the contents last
given to it, and a block that waits for its write is not dropped. `Cache` says so without
buffers; every call of `bio.c` is a step of the cache that the buffers stand for. -/

namespace Xv6Container.Log

open Lib

/-- The blocks as their users see them: what is on the disk, what a reader gets, the
blocks that wait for a write, and the buffers that are held. -/
structure Cache where
  disk : Disk
  data : Disk
  dirty : Finset BlockNo
  held : BlockNo → Option BufId

variable {k k' : Kernel} {c c' : Cache} {i : BufId} {b : BlockNo} {u : Buf} {l : List BlockNo}
  {q : Bool} {x : Block}

structure Vacant (u : Buf) : Prop where
  dev : u.dev ≠ ROOTDEV
  locked : u.locked = false
  refcnt : u.refcnt = 0
  dirty : u.dirty = false

structure Filled (c : Cache) (i : BufId) (u : Buf) : Prop where
  dev : u.dev = ROOTDEV
  valid : u.valid = true
  small : u.blockno.toNat < FSSIZE
  data : u.data = c.data u.blockno
  dirty : u.dirty = true ↔ u.blockno ∈ c.dirty
  lock : u.locked = true ∧ u.refcnt = 1 ∧ c.held u.blockno = some i ∨
    u.locked = false ∧ u.refcnt = 0 ∧ c.held u.blockno = none

/-- The kernel's buffers stand for the cache `c`. -/
structure Holds (k : Kernel) (c : Cache) : Prop where
  disk : k.disk = c.disk
  order : ∀ i, i ∈ k.order
  each : ∀ i, Vacant (k.buf i) ∨ Filled c i (k.buf i)
  uniq : ∀ i j, (k.buf i).dev = ROOTDEV → (k.buf j).dev = ROOTDEV →
    (k.buf i).blockno = (k.buf j).blockno → i = j
  pinned : ∀ b ∈ c.dirty, ∃ i, (k.buf i).dev = ROOTDEV ∧ (k.buf i).blockno = b
  caught : ∀ b i, c.held b = some i → (k.buf i).dev = ROOTDEV ∧ (k.buf i).blockno = b
  clean : ∀ b, b ∉ c.dirty → c.held b = none → c.data b = c.disk b

/-- Two caches agree on every block but `b`. -/
structure Agree (c c' : Cache) (b : BlockNo) : Prop where
  data : ∀ b', b' ≠ b → c'.data b' = c.data b'
  dirty : ∀ b', b' ≠ b → (b' ∈ c'.dirty ↔ b' ∈ c.dirty)
  held : ∀ b', b' ≠ b → c'.held b' = c.held b'

theorem Filled.congr (h : Filled c i u) (hag : Agree c c' b) (hb : u.blockno ≠ b) :
    Filled c' i u where
  dev := h.dev
  valid := h.valid
  small := h.small
  data := h.data.trans (hag.data _ hb).symm
  dirty := h.dirty.trans (hag.dirty _ hb).symm
  lock := by
    rw [hag.held _ hb]
    exact h.lock

theorem Holds.filled (h : Holds k c) (hi : (k.buf i).dev = ROOTDEV) : Filled c i (k.buf i) :=
  (h.each i).resolve_left fun hv => hv.dev hi

theorem Holds.of_held (h : Holds k c) (hb : c.held b = some i) :
    Filled c i (k.buf i) ∧ (k.buf i).blockno = b ∧ (k.buf i).locked = true ∧
      (k.buf i).refcnt = 1 := by
  obtain ⟨hdev, hno⟩ := h.caught b i hb
  have hf := h.filled hdev
  refine ⟨hf, hno, ?_⟩
  rcases hf.lock with ⟨hl, hr, -⟩ | ⟨-, -, hn⟩
  · exact ⟨hl, hr⟩
  · rw [hno, hb] at hn
    cases hn

/-- Buffer `i` gets to hold block `b`: it held `b` before, or a block that nobody needs. -/
theorem Holds.put (h : Holds k c) (hf : Filled c' i u) (hb : u.blockno = b) (hag : Agree c c' b)
    (hdisk : k'.disk = c'.disk) (hbuf : k'.buf = Function.update k.buf i u)
    (horder : ∀ j, j ∈ k'.order)
    (hsole : ∀ j, j ≠ i → (k.buf j).dev = ROOTDEV → (k.buf j).blockno ≠ b)
    (hfree : (k.buf i).dev = ROOTDEV → (k.buf i).blockno ≠ b →
      (k.buf i).blockno ∉ c.dirty ∧ c.held (k.buf i).blockno = none)
    (hclean : ∀ b', b' ∉ c'.dirty → c'.held b' = none → c'.data b' = c'.disk b') :
    Holds k' c' := by
  have hi : k'.buf i = u := by rw [hbuf, Function.update_self]
  have hj : ∀ j, j ≠ i → k'.buf j = k.buf j := fun j hj => by rw [hbuf, Function.update_of_ne hj]
  constructor
  case disk => exact hdisk
  case order => exact horder
  case each =>
    intro j
    by_cases hji : j = i
    · subst hji
      rw [hi]
      exact .inr hf
    · rw [hj j hji]
      rcases h.each j with hv | hv
      · exact .inl hv
      · exact .inr (hv.congr hag (hsole j hji hv.dev))
  case uniq =>
    intro j l hjd hld hno
    by_cases hji : j = i <;> by_cases hli : l = i
    · rw [hji, hli]
    · rw [hj l hli] at hld hno
      rw [hji, hi, hb] at hno
      exact absurd hno.symm (hsole l hli hld)
    · rw [hj j hji] at hjd hno
      rw [hli, hi, hb] at hno
      exact absurd hno (hsole j hji hjd)
    · rw [hj j hji] at hjd hno
      rw [hj l hli] at hld hno
      exact h.uniq j l hjd hld hno
  case pinned =>
    intro b' hb'
    by_cases hbb : b' = b
    · exact ⟨i, by rw [hi]; exact hf.dev, by rw [hi, hb, hbb]⟩
    · have hd := (hag.dirty b' hbb).1 hb'
      obtain ⟨j, hjd, hno⟩ := h.pinned b' hd
      have hji : j ≠ i := by
        rintro rfl
        rw [← hno] at hbb hd
        exact (hfree hjd hbb).1 hd
      exact ⟨j, by rw [hj j hji]; exact hjd, by rw [hj j hji]; exact hno⟩
  case caught =>
    intro b' j hb'
    by_cases hbb : b' = b
    · rw [hbb, ← hb] at hb'
      rcases hf.lock with ⟨-, -, hl⟩ | ⟨-, -, hl⟩
      · rw [hl, Option.some.injEq] at hb'
        rw [← hb', hi, hbb]
        exact ⟨hf.dev, hb⟩
      · rw [hl] at hb'
        cases hb'
    · rw [hag.held b' hbb] at hb'
      obtain ⟨hjd, hno⟩ := h.caught b' j hb'
      have hji : j ≠ i := by
        rintro rfl
        rw [← hno] at hbb hb'
        rw [(hfree hjd hbb).2] at hb'
        cases hb'
      rw [hj j hji]
      exact ⟨hjd, hno⟩
  case clean => exact hclean

/-! ### The calls -/

/-- The state of a program that works on the cache: the buffers, the header in memory and
whether the power may fail. -/
structure At (c : Cache) (l : List BlockNo) (q : Bool) (k : Kernel) : Prop where
  holds : Holds k c
  lh : k.lh = l
  power : k.power.isSome = q

/-- A buffer can be found for `b`: nobody holds it, and it waits for its write or there are
fewer blocks in use than buffers. -/
def Cache.Room (c : Cache) (b : BlockNo) : Prop :=
  b.toNat < FSSIZE ∧ c.held b = none ∧ (b ∈ c.dirty ∨
    ∃ s : Finset BlockNo, (∀ b', b' ∈ c.dirty ∨ c.held b' ≠ none → b' ∈ s) ∧ s.card < NBUF)

/-- Block `b` is in buffer `i`. -/
def Cache.hold (c : Cache) (b : BlockNo) (i : BufId) : Cache :=
  { c with held := Function.update c.held b (some i) }

def Cache.release (c : Cache) (b : BlockNo) : Cache :=
  { c with held := Function.update c.held b none }

def Cache.setData (c : Cache) (b : BlockNo) (x : Block) : Cache :=
  { c with data := Function.update c.data b x }

def Cache.pin (c : Cache) (b : BlockNo) : Cache := { c with dirty := insert b c.dirty }

/-- The contents of `b` are on the disk. -/
def Cache.write (c : Cache) (b : BlockNo) : Cache :=
  { c with disk := Function.update c.disk b (c.data b), dirty := c.dirty.erase b }

theorem Holds.cached_some (hi : k.cached ROOTDEV b = some i) :
    (k.buf i).dev = ROOTDEV ∧ (k.buf i).blockno = b := by
  have := List.find?_some hi
  simpa using this

theorem Holds.cached_none (h : Holds k c) (hn : k.cached ROOTDEV b = none) (i : BufId) :
    (k.buf i).dev = ROOTDEV → (k.buf i).blockno ≠ b := by
  have := List.find?_eq_none.1 hn i (h.order i)
  simpa using this

theorem unused_some (hi : k.unused = some i) : (k.buf i).refcnt = 0 ∧ (k.buf i).dirty = false := by
  have := List.find?_some hi
  simpa using this

/-- With every buffer in use there are as many blocks in use as buffers. -/
theorem Holds.card_of_unused_none (h : Holds k c) (hn : k.unused = none) {s : Finset BlockNo}
    (hs : ∀ b, b ∈ c.dirty ∨ c.held b ≠ none → b ∈ s) : NBUF ≤ s.card := by
  have hfull : ∀ i, Filled c i (k.buf i) ∧ (k.buf i).blockno ∈ s := by
    intro i
    have hi := List.find?_eq_none.1 hn i (List.mem_reverse.2 (h.order i))
    simp only [Bool.and_eq_true, beq_iff_eq, Bool.not_eq_true', not_and, Bool.not_eq_false] at hi
    rcases h.each i with hv | hf
    · rw [hv.dirty] at hi
      exact absurd (hi hv.refcnt) (by decide)
    · refine ⟨hf, hs _ ?_⟩
      rcases hf.lock with ⟨-, -, hh⟩ | ⟨-, hr, -⟩
      · exact .inr (by rw [hh]; exact Option.some_ne_none i)
      · exact .inl (hf.dirty.1 (hi hr))
  have hinj : ∀ i j, (k.buf i).blockno = (k.buf j).blockno → i = j := fun i j =>
    h.uniq i j (hfull i).1.dev (hfull j).1.dev
  have := Finset.card_le_card_of_injOn (fun i => (k.buf i).blockno) (s := Finset.univ) (t := s)
    (fun i _ => (hfull i).2) (fun i _ j _ => hinj i j)
  rwa [Finset.card_univ, Fintype.card_fin] at this

/-- Blocks in buffers are at most as many as the buffers. -/
theorem Holds.card_le (h : Holds k c) {s : Finset BlockNo}
    (hs : ∀ b ∈ s, b ∈ c.dirty ∨ c.held b ≠ none) : s.card ≤ NBUF := by
  have hex : ∀ b ∈ s, ∃ i, (k.buf i).dev = ROOTDEV ∧ (k.buf i).blockno = b := by
    intro b hb
    rcases hs b hb with hd | hh
    · exact h.pinned b hd
    · obtain ⟨i, hi⟩ := Option.ne_none_iff_exists'.1 hh
      exact ⟨i, h.caught b i hi⟩
  have hsub : s ⊆ Finset.univ.image fun i => (k.buf i).blockno := by
    intro b hb
    obtain ⟨i, -, hi⟩ := hex b hb
    exact Finset.mem_image.2 ⟨i, Finset.mem_univ i, hi⟩
  calc s.card ≤ (Finset.univ.image fun i => (k.buf i).blockno).card := Finset.card_le_card hsub
    _ ≤ (Finset.univ : Finset BufId).card := Finset.card_image_le
    _ = NBUF := by rw [Finset.card_univ, Fintype.card_fin]

/-- A block nobody holds is in one buffer only; a cached one can be taken there. -/
theorem Holds.hit (h : Holds k c) (hi : k.cached ROOTDEV b = some i) (hb : c.held b = none) :
    Holds (k.setBuf i fun u => { u with refcnt := u.refcnt + 1, locked := true })
      (c.hold b i) := by
  obtain ⟨hdev, hno⟩ := Holds.cached_some hi
  have hf := h.filled hdev
  have hag : Agree c (c.hold b i) b :=
    ⟨fun _ _ => rfl, fun _ _ => Iff.rfl, fun b' hb' => Function.update_of_ne hb' _ _⟩
  refine h.put (u := { k.buf i with refcnt := (k.buf i).refcnt + 1, locked := true }) ?_ hno hag
    h.disk rfl h.order ?_ (fun _ hne => absurd hno hne) ?_
  · refine ⟨hf.dev, hf.valid, hf.small, hf.data, hf.dirty, .inl ⟨rfl, ?_, ?_⟩⟩
    · rcases hf.lock with ⟨-, -, hh⟩ | ⟨-, hr, -⟩
      · rw [hno, hb] at hh
        cases hh
      · rw [hr]
    · exact (congrArg _ hno).trans (Function.update_self ..)
  · intro j hj hjd hjb
    exact hj (h.uniq j i hjd hdev (hjb.trans hno.symm))
  · intro b' hd hh
    by_cases hbb : b' = b
    · subst hbb
      simp [Cache.hold] at hh
    · exact h.clean b' hd (by rwa [hag.held b' hbb] at hh)

/-- A block that is not cached is read into a buffer that nobody uses. -/
theorem Holds.miss (h : Holds k c) (hn : k.cached ROOTDEV b = none) (hi : k.unused = some i)
    (hb : b.toNat < FSSIZE) :
    Holds (k.setBuf i fun _ => ⟨ROOTDEV, b, true, false, true, 1, k.disk b⟩) (c.hold b i) := by
  have hnone := h.cached_none hn
  obtain ⟨hr, hd⟩ := unused_some hi
  have hheld : c.held b = none := by
    by_contra hh
    obtain ⟨j, hj⟩ := Option.ne_none_iff_exists'.1 hh
    exact hnone j (h.caught b j hj).1 (h.caught b j hj).2
  have hdirty : b ∉ c.dirty := by
    intro hh
    obtain ⟨j, hj⟩ := h.pinned b hh
    exact hnone j hj.1 hj.2
  have hag : Agree c (c.hold b i) b :=
    ⟨fun _ _ => rfl, fun _ _ => Iff.rfl, fun b' hb' => Function.update_of_ne hb' _ _⟩
  refine h.put (u := ⟨ROOTDEV, b, true, false, true, 1, k.disk b⟩) ?_ rfl hag h.disk rfl h.order
    (fun j _ => hnone j) ?_ ?_
  · refine ⟨rfl, rfl, hb, ?_, ⟨nofun, fun hh => absurd hh hdirty⟩, .inl ⟨rfl, rfl, ?_⟩⟩
    · exact ((h.clean b hdirty hheld).trans (congrFun h.disk b).symm).symm
    · exact Function.update_self ..
  · intro hdev _
    have hf := h.filled hdev
    refine ⟨fun hh => absurd ((hf.dirty.2 hh).symm.trans hd) (by decide), ?_⟩
    rcases hf.lock with ⟨-, hr', -⟩ | ⟨-, -, hh⟩
    · rw [hr] at hr'
      cases hr'
    · exact hh
  · intro b' hd' hh
    by_cases hbb : b' = b
    · subst hbb
      simp [Cache.hold] at hh
    · exact h.clean b' hd' (by rwa [hag.held b' hbb] at hh)

/-! ### The buffers after each call -/

theorem setBuf_setBuf (k : Kernel) (i : BufId) (f g : Buf → Buf) :
    (k.setBuf i f).setBuf i g = k.setBuf i fun u => g (f u) := by
  simp [Kernel.setBuf]

@[simp] theorem buf_setBuf (k : Kernel) (i : BufId) (f : Buf → Buf) :
    (k.setBuf i f).buf i = f (k.buf i) := Function.update_self ..

theorem acquiresleep_free (hl : (k.buf i).locked = false) :
    acquiresleep i k = .ok () (k.setBuf i fun u => { u with locked := true }) := by
  simp [acquiresleep, setBuf, hl]

theorem acquiresleep_taken (hl : (k.buf i).locked = true) :
    acquiresleep i k = .error .blocked k := by
  simp [acquiresleep, hl]

theorem bget_hit (hi : k.cached ROOTDEV b = some i) (hl : (k.buf i).locked = false) :
    bget ROOTDEV b k =
      .ok i (k.setBuf i fun u => { u with refcnt := u.refcnt + 1, locked := true }) := by
  rw [bget, run_get_bind, hi]
  refine (run_bind_ok (run_modify ..)).trans ?_
  rw [run_bind_ok (acquiresleep_free (by simpa using hl)), setBuf_setBuf, run_pure]

theorem bget_blocked (hi : k.cached ROOTDEV b = some i) (hl : (k.buf i).locked = true) :
    bget ROOTDEV b k = .error .blocked (k.setBuf i fun u => { u with refcnt := u.refcnt + 1 }) := by
  rw [bget, run_get_bind, hi]
  refine (run_bind_ok (run_modify ..)).trans ?_
  rw [run_bind_error (acquiresleep_taken (by simpa using hl))]

theorem bget_recycle (hn : k.cached ROOTDEV b = none) (hi : k.unused = some i)
    (hl : (k.buf i).locked = false) :
    bget ROOTDEV b k =
      .ok i (k.setBuf i fun u => ⟨ROOTDEV, b, false, false, true, 1, u.data⟩) := by
  simp only [bget, run_get_bind, hn, hi]
  refine (run_bind_ok (run_modify ..)).trans ?_
  rw [run_bind_ok (acquiresleep_free (by simpa using hl)), setBuf_setBuf, run_pure]

theorem bget_full (hn : k.cached ROOTDEV b = none) (hi : k.unused = none) :
    bget ROOTDEV b k = .error (.panic "bget: no buffers") k := by
  simp only [bget, run_get_bind, hn, hi, run_throw]

theorem iderw_read (hl : (k.buf i).locked = true) (hv : (k.buf i).valid = false)
    (hd : (k.buf i).dirty = false) (hb : (k.buf i).blockno.toNat < FSSIZE) :
    iderw i k = .ok () (k.setBuf i fun u =>
      { u with data := k.disk u.blockno, valid := true, dirty := false }) := by
  simp [iderw, setBuf, hl, hv, hd, not_le.2 hb]

theorem iderw_outside (hl : (k.buf i).locked = true) (hv : (k.buf i).valid = false)
    (hb : FSSIZE ≤ (k.buf i).blockno.toNat) :
    iderw i k = .error (.panic "incorrect blockno") k := by
  simp [iderw, hl, hv, hb]

theorem iderw_write (hl : (k.buf i).locked = true) (hd : (k.buf i).dirty = true)
    (hb : (k.buf i).blockno.toNat < FSSIZE) :
    iderw i k = (do
      writeBlock (k.buf i).blockno (k.buf i).data
      setBuf i fun u => { u with valid := true, dirty := false }) k := by
  simp only [iderw, run_get_bind, hl, hd, Bool.true_eq_false, if_false, and_false, not_le.2 hb,
    ge_iff_le, if_true]

/-- The block is written, or the power fails before it is. -/
theorem writeBlock_cases (k : Kernel) (b : BlockNo) (x : Block) :
    (∃ p : Option ℕ, p.isSome = k.power.isSome ∧ writeBlock b x k =
      .ok () { k with disk := Function.update k.disk b x, power := p }) ∨
    k.power.isSome = true ∧ writeBlock b x k = .error .powerFail k := by
  match hp : k.power with
  | none => exact .inl ⟨k.power, by rw [hp], by simp [writeBlock, hp]⟩
  | some 0 => exact .inr ⟨rfl, by simp [writeBlock, hp]⟩
  | some (n + 1) => exact .inl ⟨some n, rfl, by simp [writeBlock, hp]⟩

/-- What `bread` returns: the block is held, or the disk is as before and there was no
room for it. -/
theorem bread_spec (c : Cache) (l : List BlockNo) (q : Bool) (b : BlockNo) :
    Triple (At c l q) (bread ROOTDEV b) (fun i k => c.held b = none ∧ At (c.hold b i) l q k)
      (fun k => k.disk = c.disk ∧ ¬ c.Room b) := by
  intro k h
  rw [bread]
  cases hc : k.cached ROOTDEV b with
  | some i =>
    obtain ⟨hdev, hno⟩ := Holds.cached_some hc
    have hf := h.holds.filled hdev
    rcases hf.lock with ⟨hl, -, hh⟩ | ⟨hl, -, hh⟩
    · rw [run_bind_error (bget_blocked hc hl)]
      rw [hno] at hh
      refine ⟨h.holds.disk, fun hr => ?_⟩
      rw [hr.2.1] at hh
      cases hh
    · rw [run_bind_ok (bget_hit hc hl), run_get_bind, buf_setBuf, if_pos hf.valid, run_pure]
      rw [hno] at hh
      exact ⟨hh, h.holds.hit hc hh, h.lh, h.power⟩
  | none =>
    cases hi : k.unused with
    | some i =>
      obtain ⟨hr, hd⟩ := unused_some hi
      have hl : (k.buf i).locked = false := by
        rcases h.holds.each i with hv | hf
        · exact hv.locked
        · rcases hf.lock with ⟨-, hr', -⟩ | ⟨hl, -, -⟩
          · rw [hr] at hr'
            cases hr'
          · exact hl
      have hheld : c.held b = none := by
        by_contra hh
        obtain ⟨j, hj⟩ := Option.ne_none_iff_exists'.1 hh
        obtain ⟨hjd, hjb⟩ := h.holds.caught b j hj
        exact h.holds.cached_none hc j hjd hjb
      rw [run_bind_ok (bget_recycle hc hi hl), run_get_bind, buf_setBuf, if_neg (by simp)]
      by_cases hb : b.toNat < FSSIZE
      · have hmiss := h.holds.miss hc hi hb
        rw [run_bind_ok (iderw_read (by simp) (by simp) (by simp) (by simpa using hb)),
          setBuf_setBuf, run_pure]
        exact ⟨hheld, hmiss, h.lh, h.power⟩
      · rw [run_bind_error (iderw_outside (by simp) (by simp) (by simpa using hb))]
        exact ⟨h.holds.disk, fun hroom => hb hroom.1⟩
    | none =>
      rw [run_bind_error (bget_full hc hi)]
      refine ⟨h.holds.disk, ?_⟩
      rintro ⟨-, -, hd | ⟨s, hs, hcard⟩⟩
      · obtain ⟨j, hj⟩ := h.holds.pinned b hd
        exact h.holds.cached_none hc j hj.1 hj.2
      · exact absurd (h.holds.card_of_unused_none hi hs) (not_le.2 hcard)

/-- A change to the buffer that holds `b`, seen from the cache. -/
theorem Holds.change (h : Holds k c) (hb : c.held b = some i) {f : Buf → Buf}
    (hf : Filled c' i (f (k.buf i))) (hno : (f (k.buf i)).blockno = b) (hag : Agree c c' b)
    {order : List BufId} (horder : ∀ j, j ∈ order) {p : Option ℕ}
    (hclean : ∀ b', b' ∉ c'.dirty → c'.held b' = none → c'.data b' = c'.disk b') :
    Holds { k.setBuf i f with disk := c'.disk, order := order, power := p } c' := by
  obtain ⟨hfi, hnoi, -, -⟩ := h.of_held hb
  refine h.put hf hno hag rfl rfl horder ?_ (fun _ hne => absurd hnoi hne) hclean
  intro j hj hjd hjb
  exact hj (h.uniq j i hjd hfi.dev (hjb.trans hnoi.symm))

/-- Blocks other than `b` are clean as before. -/
theorem Holds.clean_of_agree (h : Holds k c) (hag : Agree c c' b)
    (hdisk : ∀ b', b' ≠ b → c'.disk b' = c.disk b')
    (hb : b ∉ c'.dirty → c'.held b = none → c'.data b = c'.disk b) (b' : BlockNo)
    (hd : b' ∉ c'.dirty) (hh : c'.held b' = none) : c'.data b' = c'.disk b' := by
  by_cases hbb : b' = b
  · subst hbb
    exact hb hd hh
  · rw [hag.data b' hbb, hdisk b' hbb]
    exact h.clean b' (fun hd' => hd ((hag.dirty b' hbb).2 hd')) ((hag.held b' hbb).symm.trans hh)

theorem setData_spec (l : List BlockNo) (q : Bool) (hb : c.held b = some i) :
    Triple (At c l q) (setData i x) (fun _ => At (c.setData b x) l q) (fun _ => False) := by
  intro k h
  obtain ⟨hf, hno, hl, hr⟩ := h.holds.of_held hb
  have hag : Agree c (c.setData b x) b :=
    ⟨fun b' hb' => Function.update_of_ne hb' _ _, fun _ _ => Iff.rfl, fun _ _ => rfl⟩
  have hf' : Filled (c.setData b x) i { k.buf i with data := x } := by
    refine ⟨hf.dev, hf.valid, hf.small, ?_, hf.dirty, hf.lock⟩
    change x = Function.update c.data b x (k.buf i).blockno
    rw [hno, Function.update_self]
  have hclean := h.holds.clean_of_agree hag (fun _ _ => rfl) fun _ hh => absurd (hb.symm.trans hh)
    (Option.some_ne_none i)
  have := h.holds.change (f := fun u => { u with data := x }) hb hf' hno hag h.holds.order
    (p := k.power) hclean
  rw [show (c.setData b x).disk = k.disk from h.holds.disk.symm] at this
  exact ⟨this, h.lh, h.power⟩

theorem brelse_spec (l : List BlockNo) (q : Bool) (hb : c.held b = some i)
    (hd : b ∉ c.dirty → c.data b = c.disk b) :
    Triple (At c l q) (brelse i) (fun _ => At (c.release b) l q) (fun _ => False) := by
  intro k h
  obtain ⟨hf, hno, hl, hr⟩ := h.holds.of_held hb
  have hag : Agree c (c.release b) b :=
    ⟨fun _ _ => rfl, fun _ _ => Iff.rfl, fun b' hb' => Function.update_of_ne hb' _ _⟩
  have hf' : Filled (c.release b) i { k.buf i with
      locked := false, refcnt := (k.buf i).refcnt - 1 } := by
    refine ⟨hf.dev, hf.valid, hf.small, hf.data, hf.dirty, .inr ⟨rfl, ?_, ?_⟩⟩
    · rw [hr]
    · exact (congrArg _ hno).trans (Function.update_self ..)
  have horder : ∀ j, j ∈ i :: k.order.erase i := by
    intro j
    by_cases hj : j = i
    · exact hj ▸ List.mem_cons_self
    · exact List.mem_cons_of_mem _ ((List.mem_erase_of_ne hj).2 (h.holds.order j))
  have := h.holds.change (f := fun u => { u with locked := false, refcnt := u.refcnt - 1 }) hb hf' hno
    hag horder (p := k.power) (h.holds.clean_of_agree hag (fun _ _ => rfl) fun hb' _ => hd hb')
  rw [show (c.release b).disk = k.disk from h.holds.disk.symm] at this
  have hrun : brelse i k = .ok () { k.setBuf i fun u =>
      { u with locked := false, refcnt := u.refcnt - 1 } with order := i :: k.order.erase i } := by
    rw [brelse, run_get_bind, if_neg (by simp [hl])]
    refine (run_bind_ok (run_modify ..)).trans ?_
    rw [run_modify, buf_setBuf, if_pos (by simp [hr])]
    rfl
  rw [hrun]
  exact ⟨this, h.lh, h.power⟩

/-- The block write of `bwrite`, unless the power fails before it. -/
theorem bwrite_spec (l : List BlockNo) (q : Bool) (hb : c.held b = some i) :
    Triple (At c l q) (bwrite i) (fun _ => At (c.write b) l q)
      (fun k => k.disk = c.disk ∧ q = true) := by
  intro k h
  obtain ⟨hf, hno, hl, hr⟩ := h.holds.of_held hb
  have hag : Agree c (c.write b) b :=
    ⟨fun _ _ => rfl, fun b' hb' => by simp [Cache.write, hb'], fun _ _ => rfl⟩
  have hf' : Filled (c.write b) i { k.buf i with valid := true, dirty := false } := by
    refine ⟨hf.dev, rfl, hf.small, hf.data, ?_, hf.lock⟩
    change false = true ↔ (k.buf i).blockno ∈ c.dirty.erase b
    simp [hno]
  have hclean := h.holds.clean_of_agree hag (fun b' hb' => Function.update_of_ne hb' _ _)
    fun _ hh => absurd (hb.symm.trans hh) (Option.some_ne_none i)
  have hput := fun p => h.holds.change (f := fun u => { u with valid := true, dirty := false }) hb
    hf' hno hag h.holds.order (p := p) hclean
  have hdisk : (c.write b).disk = Function.update k.disk (k.buf i).blockno (k.buf i).data := by
    rw [hno, hf.data, hno, h.holds.disk]
    rfl
  rw [hdisk] at hput
  have hrun : bwrite i k = (do
      writeBlock (k.buf i).blockno (k.buf i).data
      setBuf i fun u => { u with valid := true, dirty := false })
      (k.setBuf i fun u => { u with dirty := true }) := by
    rw [bwrite, run_get_bind, if_neg (by simp [hl])]
    refine (run_bind_ok (run_modify ..)).trans ?_
    rw [iderw_write (by simpa using hl) (by simp) (by simpa using hf.small), buf_setBuf]
  rw [hrun]
  rcases writeBlock_cases (k.setBuf i fun u => { u with dirty := true }) (k.buf i).blockno
    (k.buf i).data with ⟨p, hp, hw⟩ | ⟨hp, hw⟩
  · rw [run_bind_ok hw]
    have := hput p
    refine ⟨?_, h.lh, hp.trans h.power⟩
    simpa [Kernel.setBuf] using this
  · rw [run_bind_error hw]
    exact ⟨h.holds.disk, h.power.symm.trans hp⟩

/-- `log_write` pins the block that its caller holds. -/
theorem pin_spec (l : List BlockNo) (q : Bool) (hb : c.held b = some i) :
    Triple (At c l q) (setBuf i fun u => { u with dirty := true })
      (fun _ => At (c.pin b) l q) (fun _ => False) := by
  intro k h
  obtain ⟨hf, hno, hl, hr⟩ := h.holds.of_held hb
  have hag : Agree c (c.pin b) b :=
    ⟨fun _ _ => rfl, fun b' hb' => by simp [Cache.pin, hb'], fun _ _ => rfl⟩
  have hf' : Filled (c.pin b) i { k.buf i with dirty := true } := by
    refine ⟨hf.dev, hf.valid, hf.small, hf.data, ?_, hf.lock⟩
    change true = true ↔ (k.buf i).blockno ∈ insert b c.dirty
    simp [hno]
  have hclean := h.holds.clean_of_agree hag (fun _ _ => rfl) fun _ hh => absurd (hb.symm.trans hh)
    (Option.some_ne_none i)
  have := h.holds.change (f := fun u => { u with dirty := true }) hb hf' hno hag h.holds.order
    (p := k.power) hclean
  rw [show (c.pin b).disk = k.disk from h.holds.disk.symm] at this
  exact ⟨this, h.lh, h.power⟩

end Xv6Container.Log
