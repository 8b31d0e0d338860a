import Xv6Container.Bcache.Coherence

/-! What each call on the buffer cache does to a coherent state, and that it leaves a coherent state
behind. -/

namespace Xv6Container.Bcache

open Function Lib
open Log (BlockNo Block Disk BufId Buf NBUF Stop LOGSIZE MAXOPBLOCKS)

variable {c : Config} {s t : State} {i j : BufId} {u v : Buf} {dev : UInt32} {b : BlockNo}
  {w : Waiter}

/-! ### Effects -/

/-- What `bget` makes of a buffer that already holds the block. -/
def State.share (s : State) (i : BufId) : State :=
  { s with
    buf := update s.buf i { s.buf i with refcnt := (s.buf i).refcnt + 1 }
    waiting := (i, (s.buf i).dev, (s.buf i).blockno) :: s.waiting }

/-- What `bget` makes of a buffer that nobody uses. -/
def State.recycle (s : State) (i : BufId) (dev : UInt32) (b : BlockNo) : State :=
  { s with
    buf := update s.buf i { s.buf i with
      dev := dev, blockno := b, valid := false, dirty := false, refcnt := 1 }
    waiting := (i, dev, b) :: s.waiting }

theorem bget_cases (h : bget dev b s = .ok i t) (hring : Ringed s.links) :
    ((s.buf i).dev = dev ∧ (s.buf i).blockno = b ∧ t = s.share i) ∨
    ((∀ j, ¬ ((s.buf j).dev = dev ∧ (s.buf j).blockno = b)) ∧ (s.buf i).refcnt = 0 ∧
      (s.buf i).dirty = false ∧ t = s.recycle i dev b) := by
  obtain ⟨l, hl, hall⟩ := hring
  rw [bget, run_get_bind, find_next hl] at h
  cases hhit : l.find? fun i => (s.buf i).dev == dev && (s.buf i).blockno == b with
  | some k =>
    rw [hhit] at h
    obtain ⟨hdev, hblock⟩ : (s.buf k).dev = dev ∧ (s.buf k).blockno = b := by
      simpa using List.find?_some hhit
    cases h
    exact .inl ⟨hdev, hblock, by rw [State.share, hdev, hblock]⟩
  | none =>
    simp only [hhit, find_prev hl] at h
    have hmiss : ∀ j, ¬ ((s.buf j).dev = dev ∧ (s.buf j).blockno = b) := by
      intro j
      have hj := List.find?_eq_none.1 hhit j (hall j)
      simpa using hj
    cases hfree : l.reverse.find? fun i => (s.buf i).refcnt == 0 && !(s.buf i).dirty with
    | some k =>
      rw [hfree] at h
      obtain ⟨hrefs, hdirty⟩ : (s.buf k).refcnt = 0 ∧ (s.buf k).dirty = false := by
        simpa using List.find?_some hfree
      cases h
      exact .inr ⟨hmiss, hrefs, hdirty, rfl⟩
    | none =>
      rw [hfree] at h
      cases h

/-- `iderw` reads a buffer that is not dirty. -/
theorem iderw_clean (h : iderw c i s = .ok () t) (hdirty : (s.buf i).dirty = false) :
    (s.buf i).dev = 1 ∧ (s.buf i).blockno.toNat < c.disksize ∧
      t = { s with buf := update s.buf i { s.buf i with
        data := s.disk (s.buf i).blockno, valid := true } } := by
  rw [iderw, run_get_bind] at h
  split_ifs at h with hl hv hdev hblock hd
  · cases h
  · cases h
  · cases h
  · cases h
  · rw [hdirty] at hd
    cases hd
  · cases h
    exact ⟨not_not.1 hdev, not_le.1 hblock, rfl⟩

/-- `iderw` writes a buffer that is dirty. -/
theorem iderw_dirty (h : iderw c i s = .ok () t) (hdirty : (s.buf i).dirty = true) :
    (s.buf i).dev = 1 ∧ (s.buf i).blockno.toNat < c.disksize ∧
      t = { s with
        disk := update s.disk (s.buf i).blockno (s.buf i).data
        buf := update s.buf i { s.buf i with dirty := false, valid := true } } := by
  rw [iderw, run_get_bind] at h
  split_ifs at h with hl hv hdev hblock
  · cases h
  · cases h
  · cases h
  · cases h
  · cases h
    exact ⟨not_not.1 hdev, not_le.1 hblock, rfl⟩

/-- What the lock makes of a buffer with the contents `x`. -/
def State.lock (s : State) (w : Waiter) (x : Block) : State :=
  { s with
    buf := update s.buf w.1 { s.buf w.1 with locked := true, valid := true, data := x }
    waiting := s.waiting.erase w }

theorem enter_cases (h : enter c w s = .ok () t)
    (hread : (s.buf w.1).dirty = true → (s.buf w.1).valid = true) :
    (s.buf w.1).locked = false ∧
      ((s.buf w.1).valid = true ∧ t = s.lock w (s.buf w.1).data ∨
        (s.buf w.1).valid = false ∧ (s.buf w.1).dev = 1 ∧
          (s.buf w.1).blockno.toNat < c.disksize ∧ t = s.lock w (s.disk (s.buf w.1).blockno)) := by
  rw [enter, run_get_bind] at h
  cases hl : (s.buf w.1).locked with
  | true =>
    rw [if_pos hl] at h
    cases h
  | false =>
    rw [if_neg (by rw [hl]; decide)] at h
    obtain ⟨_, s₁, hlock, h⟩ := bind_eq_ok h
    obtain ⟨_, s₂, herase, h⟩ := bind_eq_ok h
    cases hlock
    cases herase
    rw [run_get_bind] at h
    simp only [update_self] at h
    refine ⟨rfl, ?_⟩
    cases hv : (s.buf w.1).valid with
    | true =>
      rw [if_neg (by rw [hv]; decide)] at h
      cases h
      left
      refine ⟨rfl, ?_⟩
      simp only [State.lock, hv]
    | false =>
      rw [if_pos hv] at h
      have hdirty : (s.buf w.1).dirty = false := by
        rw [← Bool.not_eq_true]
        intro hd
        rw [hread hd] at hv
        cases hv
      obtain ⟨hdev, hblock, ht⟩ := iderw_clean h (by simpa using hdirty)
      simp only [update_self] at hdev hblock ht
      right
      refine ⟨rfl, hdev, hblock, ?_⟩
      rw [ht]
      simp [State.lock]

/-! ### Waiters -/

@[simp] theorem waiters_share (s : State) (i j : BufId) :
    (s.share i).waiters j =
      if i = j then (i, (s.buf i).dev, (s.buf i).blockno) :: s.waiters j else s.waiters j := by
  simp [State.waiters, State.share, List.filter_cons]

@[simp] theorem waiters_recycle (s : State) (i j : BufId) :
    (s.recycle i dev b).waiters j = if i = j then (i, dev, b) :: s.waiters j else s.waiters j := by
  simp [State.waiters, State.recycle, List.filter_cons]

theorem waiters_lock (s : State) (w : Waiter) (x : Block) (j : BufId) :
    (s.lock w x).waiters j = (s.waiters j).erase w := by
  rw [State.waiters, State.waiters, List.erase_filter]
  rfl

theorem waiters_lock_of_ne {x : Block} (h : j ≠ w.1) : (s.lock w x).waiters j = s.waiters j := by
  rw [waiters_lock]
  apply List.erase_of_not_mem
  rw [State.waiters, List.mem_filter]
  intro hw
  exact h (of_decide_eq_true hw.2).symm

theorem mem_waiters (h : w ∈ s.waiting) : w ∈ s.waiters w.1 := by
  rw [State.waiters, List.mem_filter]
  exact ⟨h, decide_eq_true rfl⟩

/-! ### What the calls keep -/

namespace Coherent

theorem share (h : Coherent c s) (i : BufId) : Coherent c (s.share i) := by
  apply h.change_quiet (t := s.share i) (i := i) rfl h.ring _ (fun _ _ => rfl) _ rfl rfl rfl rfl rfl
  · intro j hj
    rw [waiters_share, if_neg hj.symm]
  · have hi := h.each i
    constructor
    · rw [waiters_share, if_pos rfl, List.length_cons]
      have hrefs := hi.refs
      show (s.buf i).refcnt + 1 = _ + s.leaving.count i + (s.buf i).locked.toNat
      omega
    · intro w hw
      rw [waiters_share, if_pos rfl, List.mem_cons] at hw
      rcases hw with rfl | hw
      · rfl
      · exact hi.asked w hw
    · exact hi.read
    · exact hi.disk
    · exact hi.same

theorem recycle (h : Coherent c s) (hmiss : ∀ j, ¬ ((s.buf j).dev = dev ∧ (s.buf j).blockno = b))
    (hrefs : (s.buf i).refcnt = 0) (hdirty : (s.buf i).dirty = false) :
    Coherent c (s.recycle i dev b) := by
  obtain ⟨hlocked, hwaiters, hleaving⟩ := h.idle hrefs
  apply h.change (t := s.recycle i dev b) (i := i) rfl h.ring _ (fun _ _ => rfl)
  · constructor
    · rw [waiters_recycle, if_pos rfl, hwaiters]
      show 1 = 1 + s.leaving.count i + (s.buf i).locked.toNat
      rw [List.count_eq_zero.2 hleaving, hlocked]
      rfl
    · intro w hw
      rw [waiters_recycle, if_pos rfl, hwaiters, List.mem_singleton] at hw
      rw [hw]
    · intro hor
      dsimp only at hor
      rw [hlocked] at hor
      simp at hor
    · intro hvalid
      cases hvalid
    · intro hvalid
      cases hvalid
  · rintro j - - ⟨hdev, hblock⟩
    exact hmiss j ⟨hdev.symm, hblock.symm⟩
  · intro b _
    exact ⟨rfl, rfl⟩
  · intro hd
    rw [hdirty] at hd
    cases hd
  · intro hdev _
    apply h.clean
    intro j hjdev hjblock
    exact absurd ⟨hjdev.trans hdev.symm, hjblock⟩ (hmiss j)
  · intro j hj
    rw [waiters_recycle, if_neg hj.symm]

theorem bget (h : Coherent c s) (hget : bget dev b s = .ok i t) : Coherent c t := by
  rcases bget_cases hget h.ring with ⟨-, -, rfl⟩ | ⟨hmiss, hrefs, hdirty, rfl⟩
  · exact h.share i
  · exact h.recycle hmiss hrefs hdirty

theorem lock (h : Coherent c s) (hw : w ∈ s.waiting) (hlocked : (s.buf w.1).locked = false)
    {x : Block} (hdev : (s.buf w.1).dev = 1) (hblock : (s.buf w.1).blockno.toNat < c.disksize) :
    Coherent c (s.lock w x) := by
  have hw := mem_waiters hw
  have hi := h.each w.1
  apply h.change_quiet (t := s.lock w x) (i := w.1) rfl h.ring (fun j hj => waiters_lock_of_ne hj)
    (fun _ _ => rfl) _ rfl rfl rfl rfl rfl
  constructor
  · have hrefs := hi.refs
    rw [hlocked] at hrefs
    rw [waiters_lock, List.length_erase_of_mem hw]
    have hpos := List.length_pos_of_mem hw
    show (s.buf w.1).refcnt = _ + s.leaving.count w.1 + 1
    rw [Bool.toNat_false] at hrefs
    omega
  · intro v hv
    rw [waiters_lock] at hv
    exact hi.asked v (List.mem_of_mem_erase hv)
  · intro _
    rfl
  · intro _
    exact ⟨hdev, hblock⟩
  · intro _ hunlocked
    cases hunlocked

/-- Whether from the cache or from the disk, a process gets what was last written. -/
theorem enter_eq (h : Coherent c s) (he : enter c w s = .ok () t) :
    (s.buf w.1).locked = false ∧ (s.buf w.1).dev = 1 ∧
      (s.buf w.1).blockno.toNat < c.disksize ∧ t = s.lock w (s.written (s.buf w.1).blockno) := by
  have hi := h.each w.1
  obtain ⟨hlocked, ⟨hvalid, ht⟩ | ⟨hvalid, hdev, hblock, ht⟩⟩ :=
    enter_cases he fun hdirty => hi.read (.inr hdirty)
  · obtain ⟨hdev, hblock⟩ := hi.disk hvalid
    rw [hi.same hvalid hlocked] at ht
    exact ⟨hlocked, hdev, hblock, ht⟩
  · have hdirty : (s.buf w.1).dirty = false := by
      rw [← Bool.not_eq_true]
      intro hd
      rw [hi.read (.inr hd)] at hvalid
      cases hvalid
    rw [h.clean_at hdev hdirty] at ht
    exact ⟨hlocked, hdev, hblock, ht⟩

theorem enter (h : Coherent c s) (hw : w ∈ s.waiting) (he : enter c w s = .ok () t) :
    Coherent c t := by
  obtain ⟨hlocked, hdev, hblock, rfl⟩ := h.enter_eq he
  exact h.lock hw hlocked hdev hblock

end Coherent

/-! ### Holders of the lock -/

theorem setData_eq {x : Block} (h : setData i x s = .ok () t) :
    t = { s with buf := update s.buf i { s.buf i with data := x } } := by
  cases h
  rfl

theorem bwrite_eq (h : bwrite c i s = .ok () t) :
    (s.buf i).locked = true ∧ (s.buf i).dev = 1 ∧ (s.buf i).blockno.toNat < c.disksize ∧
      t = { s with
        disk := update s.disk (s.buf i).blockno (s.buf i).data
        buf := update s.buf i { s.buf i with dirty := false, valid := true }
        written := update s.written (s.buf i).blockno (s.buf i).data } := by
  rw [bwrite, run_get_bind] at h
  split_ifs at h with hl
  · cases h
  · obtain ⟨_, s₁, hset, h⟩ := bind_eq_ok h
    obtain ⟨_, s₂, hwrite, h⟩ := bind_eq_ok h
    cases hset
    obtain ⟨hdev, hblock, rfl⟩ := iderw_dirty hwrite (by simp)
    cases h
    refine ⟨by simpa using hl, by simpa using hdev, by simpa using hblock, ?_⟩
    simp

theorem logWrite_eq (h : logWrite c i s = .ok () t) :
    s.lh.length < LOGSIZE ∧ t = { s with
      lh := if (s.buf i).blockno ∈ s.lh then s.lh else s.lh ++ [(s.buf i).blockno]
      buf := update s.buf i { s.buf i with dirty := true }
      written := update s.written (s.buf i).blockno (s.buf i).data } := by
  rw [logWrite, run_get_bind] at h
  by_cases hfull : s.lh.length ≥ LOGSIZE ∨ (s.lh.length : ℤ) ≥ c.size - 1
  · rw [if_pos hfull] at h
    cases h
  · rw [if_neg hfull] at h
    by_cases hout : s.outstanding < 1
    · rw [if_pos hout] at h
      cases h
    · rw [if_neg hout] at h
      cases h
      rw [not_or, not_le] at hfull
      refine ⟨hfull.1, ?_⟩
      simp

theorem release_eq (h : release i s = .ok () t) :
    t = { s with
      buf := update s.buf i { s.buf i with locked := false }
      leaving := i :: s.leaving } := by
  rw [release, run_get_bind] at h
  split_ifs at h with hl
  · cases h
  · cases h
    rfl

theorem put_eq (h : put i s = .ok () t) :
    ∃ r, (Ringed s.links → Ringed r) ∧ t = { s with
      buf := update s.buf i { s.buf i with refcnt := (s.buf i).refcnt - 1 }
      leaving := s.leaving.erase i
      links := r } := by
  rw [put] at h
  obtain ⟨_, s₁, hset, h⟩ := bind_eq_ok h
  obtain ⟨_, s₂, herase, h⟩ := bind_eq_ok h
  cases hset
  cases herase
  rw [run_get_bind] at h
  split_ifs at h with hrefs
  · cases h
    exact ⟨_, fun hring => hring.front i, rfl⟩
  · cases h
    exact ⟨_, id, rfl⟩

namespace Coherent

theorem setData (h : Coherent c s) {x : Block} (hl : (s.buf i).locked = true)
    (hset : setData i x s = .ok () t) : Coherent c t := by
  obtain rfl := setData_eq hset
  have hi := h.each i
  refine h.change_quiet (i := i) rfl h.ring (fun _ _ => rfl) (fun _ _ => rfl) ?_ rfl rfl rfl rfl rfl
  constructor
  · exact hi.refs
  · exact hi.asked
  · exact hi.read
  · exact hi.disk
  · intro _ hunlocked
    exact absurd (hl.symm.trans hunlocked) (by decide)

theorem logWrite (h : Coherent c s) (hl : (s.buf i).locked = true)
    (hwrite : logWrite c i s = .ok () t) : Coherent c t := by
  obtain ⟨-, rfl⟩ := logWrite_eq hwrite
  have hi := h.each i
  have hvalid := hi.read (.inl hl)
  refine h.change_same (i := i) rfl h.ring (fun _ _ => rfl) (fun _ _ => rfl) ?_ rfl rfl ?_ ?_
  · constructor
    · exact hi.refs
    · exact hi.asked
    · intro _
      exact hvalid
    · exact hi.disk
    · intro _ hunlocked
      exact absurd (hl.symm.trans hunlocked) (by decide)
  · intro b hb
    refine ⟨rfl, update_of_ne ?_ ..⟩
    rintro rfl
    exact hb ⟨(hi.disk hvalid).1, rfl⟩
  · intro _ hdirty
    cases hdirty

theorem bwrite (h : Coherent c s) (hwrite : bwrite c i s = .ok () t) : Coherent c t := by
  obtain ⟨hl, hdev, hblock, rfl⟩ := bwrite_eq hwrite
  have hi := h.each i
  refine h.change_same (i := i) rfl h.ring (fun _ _ => rfl) (fun _ _ => rfl) ?_ rfl rfl ?_ ?_
  · constructor
    · exact hi.refs
    · exact hi.asked
    · intro _
      rfl
    · intro _
      exact ⟨hdev, hblock⟩
    · intro _ hunlocked
      exact absurd (hl.symm.trans hunlocked) (by decide)
  · intro b hb
    have hne : b ≠ (s.buf i).blockno := by
      rintro rfl
      exact hb ⟨hdev, rfl⟩
    exact ⟨update_of_ne hne .., update_of_ne hne ..⟩
  · intro _ _
    simp

theorem release (h : Coherent c s) (hl : (s.buf i).locked = true)
    (hdata : (s.buf i).data = s.written (s.buf i).blockno) (hrel : release i s = .ok () t) :
    Coherent c t := by
  obtain rfl := release_eq hrel
  have hi := h.each i
  refine h.change_quiet (i := i) rfl h.ring (fun _ _ => rfl) ?_ ?_ rfl rfl rfl rfl rfl
  · intro j hj
    exact List.count_cons_of_ne hj.symm
  · constructor
    · have hrefs := hi.refs
      rw [hl] at hrefs
      show (s.buf i).refcnt = (s.waiters i).length + (i :: s.leaving).count i + 0
      rw [List.count_cons_self, hrefs, Bool.toNat_true]
      omega
    · exact hi.asked
    · rintro (hlocked | hdirty)
      · cases hlocked
      · exact hi.read (.inr hdirty)
    · exact hi.disk
    · intro _ _
      exact hdata

theorem put (h : Coherent c s) (hleaving : i ∈ s.leaving) (hput : put i s = .ok () t) :
    Coherent c t := by
  obtain ⟨r, hring, rfl⟩ := put_eq hput
  have hi := h.each i
  refine h.change_quiet (i := i) rfl (hring h.ring) (fun _ _ => rfl) ?_ ?_ rfl rfl rfl rfl rfl
  · intro j hj
    exact List.count_erase_of_ne hj ..
  · constructor
    · have hrefs := hi.refs
      have hpos := List.count_pos_iff.2 hleaving
      show (s.buf i).refcnt - 1 =
        (s.waiters i).length + (s.leaving.erase i).count i + (s.buf i).locked.toNat
      rw [List.count_erase_self]
      omega
    · exact hi.asked
    · exact hi.read
    · exact hi.disk
    · exact hi.same

end Coherent

end Xv6Container.Bcache
