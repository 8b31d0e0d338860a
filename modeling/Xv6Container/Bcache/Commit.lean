import Mathlib.Data.List.GetD
import Xv6Container.Bcache.Steps

/-! Runs of the buffer cache, and the commit as part of a run. A commit writes only to the log area
what was not there, and to the other blocks what was last written to them. -/

namespace Xv6Container.Bcache

open Function Lib
open Log (BlockNo Block Disk BufId Buf NBUF ROOTDEV LOGSIZE Stop putHead)

variable {c : Config} {s t u : State} {a : Act} {i j : BufId} {dev : UInt32} {b d : BlockNo}
  {x y : Block} {w : Waiter}

/-! ### Runs -/

theorem step_iff : step c s a = .ok t ↔ call c a s = .ok () t := by
  rw [step]
  cases call c a s with
  | ok a u =>
    cases a
    simp
  | error e u => simp

theorem Coherent.keep (h : Coherent c s) (ha : Allowed s a) (ht : step c s a = .ok t) :
    Coherent c t := by
  rw [step_iff] at ht
  cases a with
  | bget dev b =>
    obtain ⟨i, u, hget, hret⟩ := bind_eq_ok ht
    cases hret
    exact h.bget hget
  | enter w => exact h.enter ha ht
  | setData i x => exact h.setData ha ht
  | logWrite i => exact h.logWrite ha ht
  | bwrite i => exact h.bwrite ht
  | release i => exact h.release ha.1 ha.2 ht
  | put i => exact h.put ha ht
  | beginOp =>
    rw [call, beginOp, run_get_bind] at ht
    split_ifs at ht
    · cases ht
    · cases ht
      exact h.congr rfl rfl rfl rfl rfl rfl
  | leaveOp =>
    cases ht
    exact h.congr rfl rfl rfl rfl rfl rfl
  | clear =>
    cases ht
    exact h.congr rfl rfl rfl rfl rfl rfl

theorem Booted.coherent (h : Booted s) : Coherent c s := by
  obtain ⟨hlinks, -, -, hwaiting, hleaving, hwritten, hbuf⟩ := h
  constructor
  · rw [hlinks]
    exact binit_ringed
  · intro i j _ hdev
    exact absurd (hbuf i).1 hdev
  · intro i
    obtain ⟨-, hvalid, hdirty, hlocked, hrefs⟩ := hbuf i
    constructor
    · rw [hrefs, State.waiters, hwaiting, hleaving, hlocked]
      rfl
    · rw [State.waiters, hwaiting]
      intro w hw
      cases hw
    · rw [hlocked, hdirty]
      simp
    · rw [hvalid]
      simp
    · rw [hvalid]
      simp
  · intro b _
    rw [hwritten]

/-- A step gives no other block to a buffer that somebody uses or that is dirty, and the log does not
outgrow its header. -/
theorem Coherent.frame (h : Coherent c s) (ht : step c s a = .ok t) :
    (∀ i, (t.buf i).dev = (s.buf i).dev ∧ (t.buf i).blockno = (s.buf i).blockno ∨
      (s.buf i).refcnt = 0 ∧ (s.buf i).dirty = false) ∧
    (s.lh.length ≤ LOGSIZE → t.lh.length ≤ LOGSIZE) := by
  have hsame : ∀ k v, v.dev = (s.buf k).dev → v.blockno = (s.buf k).blockno → ∀ i,
      (update s.buf k v i).dev = (s.buf i).dev ∧ (update s.buf k v i).blockno = (s.buf i).blockno ∨
      (s.buf i).refcnt = 0 ∧ (s.buf i).dirty = false := by
    intro k v hdev hblock i
    left
    by_cases hi : i = k
    · subst hi
      rw [update_self]
      exact ⟨hdev, hblock⟩
    · rw [update_of_ne hi]
      exact ⟨rfl, rfl⟩
  rw [step_iff] at ht
  cases a with
  | bget dev b =>
    obtain ⟨k, u, hget, hret⟩ := bind_eq_ok ht
    cases hret
    rcases bget_cases hget h.ring with ⟨-, -, rfl⟩ | ⟨-, hrefs, hdirty, rfl⟩
    · exact ⟨hsame k _ rfl rfl, id⟩
    · refine ⟨?_, id⟩
      intro i
      by_cases hi : i = k
      · subst hi
        exact .inr ⟨hrefs, hdirty⟩
      · have hbuf : (s.recycle k dev b).buf i = s.buf i := update_of_ne hi ..
        rw [hbuf]
        exact .inl ⟨rfl, rfl⟩
  | enter w =>
    obtain ⟨-, -, -, rfl⟩ := h.enter_eq ht
    exact ⟨hsame w.1 _ rfl rfl, id⟩
  | setData i x =>
    obtain rfl := setData_eq ht
    exact ⟨hsame i _ rfl rfl, id⟩
  | logWrite i =>
    obtain ⟨hlt, rfl⟩ := logWrite_eq ht
    refine ⟨hsame i _ rfl rfl, ?_⟩
    intro hle
    dsimp only
    split_ifs
    · exact hle
    · rw [List.length_append, List.length_singleton]
      exact hlt
  | bwrite i =>
    obtain ⟨-, -, -, rfl⟩ := bwrite_eq ht
    exact ⟨hsame i _ rfl rfl, id⟩
  | release i =>
    obtain rfl := release_eq ht
    exact ⟨hsame i _ rfl rfl, id⟩
  | put i =>
    obtain ⟨r, -, rfl⟩ := put_eq ht
    exact ⟨hsame i _ rfl rfl, id⟩
  | beginOp =>
    rw [call, beginOp, run_get_bind] at ht
    split_ifs at ht
    · cases ht
    · cases ht
      exact ⟨fun i => .inl ⟨rfl, rfl⟩, id⟩
  | leaveOp =>
    cases ht
    exact ⟨fun i => .inl ⟨rfl, rfl⟩, id⟩
  | clear =>
    cases ht
    exact ⟨fun i => .inl ⟨rfl, rfl⟩, fun _ => Nat.zero_le _⟩

theorem coherent (hs : Reach (step c) Allowed Booted s) :
    Coherent c s ∧ s.lh.length ≤ LOGSIZE := by
  apply hs.invariant (I := fun s => Coherent c s ∧ s.lh.length ≤ LOGSIZE)
  · intro s h
    refine ⟨h.coherent, ?_⟩
    rw [h.2.1]
    exact Nat.zero_le _
  · rintro s a t ⟨h, hle⟩ ha ht
    exact ⟨h.keep ha ht, (h.frame ht).2 hle⟩

/-! ### Calls in the middle of a run -/

/-- From `s` a run goes to `t`. -/
abbrev Runs (c : Config) (s t : State) : Prop := Reach (step c) Allowed (· = s) t

theorem Runs.one (ha : Allowed s a) (ht : call c a s = .ok () t) : Runs c s t :=
  .next (.start rfl) ha (step_iff.2 ht)

theorem Coherent.runs (h : Coherent c s) (ht : Runs c s t) : Coherent c t := by
  apply ht.invariant
  · rintro s rfl
    exact h
  · intro s a t h ha ht
    exact h.keep ha ht

/-- The buffer is locked for its user, holds the block `b` and has the contents `x`. -/
structure Held (s : State) (i : BufId) (b : BlockNo) (x : Block) : Prop where
  locked : (s.buf i).locked = true
  dev : (s.buf i).dev = 1
  blockno : (s.buf i).blockno = b
  data : (s.buf i).data = x

theorem Held.of_eq (h : Held s i b x) (hi : t.buf i = s.buf i) : Held t i b x := by
  constructor
  · rw [hi]
    exact h.locked
  · rw [hi]
    exact h.dev
  · rw [hi]
    exact h.blockno
  · rw [hi]
    exact h.data

/-- Two buffers hold two blocks. -/
theorem Coherent.ne (h : Coherent c s) (hi : Held s i b x) (hj : Held s j d y) (hij : i ≠ j) :
    b ≠ d := by
  rintro rfl
  apply h.apart i j hij
  · rw [hi.dev]
    decide
  · exact ⟨hi.dev.trans hj.dev.symm, hi.blockno.trans hj.blockno.symm⟩

/-- What a call of the log leaves alone, whatever it does to the buffers. -/
structure Went (c : Config) (s t : State) : Prop where
  runs : Runs c s t
  lh : t.lh = s.lh
  outstanding : t.outstanding = s.outstanding

theorem Went.refl (s : State) : Went c s s := ⟨.start rfl, rfl, rfl⟩

theorem Went.trans (h : Went c s t) (h' : Went c t u) : Went c s u :=
  ⟨h.runs.trans h'.runs, h'.lh.trans h.lh, h'.outstanding.trans h.outstanding⟩

theorem bget_buf (h : bget dev b s = .ok i t) (hring : Ringed s.links) :
    Went c s t ∧ (i, dev, b) ∈ t.waiting ∧ t.written = s.written ∧
      (t.buf i).dev = dev ∧ (t.buf i).blockno = b ∧ (t.buf i).locked = (s.buf i).locked ∧
      ∀ j, j ≠ i → t.buf j = s.buf j := by
  have hruns : Runs c s t := by
    apply Runs.one (a := .bget dev b) trivial
    rw [call, run_bind_ok h]
    rfl
  rcases bget_cases h hring with ⟨rfl, rfl, rfl⟩ | ⟨-, -, -, rfl⟩
  · refine ⟨⟨hruns, rfl, rfl⟩, List.mem_cons_self, rfl, ?_, ?_, ?_, ?_⟩
    · simp [State.share]
    · simp [State.share]
    · simp [State.share]
    · intro j hj
      exact update_of_ne hj ..
  · refine ⟨⟨hruns, rfl, rfl⟩, List.mem_cons_self, rfl, ?_, ?_, ?_, ?_⟩
    · simp [State.recycle]
    · simp [State.recycle]
    · simp [State.recycle]
    · intro j hj
      exact update_of_ne hj ..

/-- `bread` returns what was last written. -/
theorem Coherent.bread (h : Coherent c s) (hb : bread c dev b s = .ok i t) :
    Went c s t ∧ t.written = s.written ∧ dev = 1 ∧ Held t i b (s.written b) ∧
      ∀ j d y, Held s j d y → j ≠ i ∧ Held t j d y := by
  obtain ⟨k, s₁, hget, hb⟩ := bind_eq_ok hb
  obtain ⟨_, s₂, henter, hret⟩ := bind_eq_ok hb
  cases hret
  obtain ⟨hwent, hw, hwritten, hdev, hblock, hlocked, hothers⟩ := bget_buf (c := c) hget h.ring
  obtain ⟨hfree, hone, -, rfl⟩ := (h.bget hget).enter_eq henter
  rw [hdev] at hone
  have hruns : Runs c s₁ (s₁.lock (i, dev, b) (s₁.written (s₁.buf i).blockno)) :=
    Runs.one (a := .enter (i, dev, b)) hw henter
  refine ⟨hwent.trans ⟨hruns, rfl, rfl⟩, hwritten, hone, ?_, ?_⟩
  · constructor
    · simp [State.lock]
    · simp [State.lock, hdev, hone]
    · simp [State.lock, hblock]
    · simp [State.lock, hblock, hwritten]
  · intro j d y hj
    have hji : j ≠ i := by
      rintro rfl
      have hl := hj.locked
      rw [← hlocked, hfree] at hl
      cases hl
    refine ⟨hji, hj.of_eq ?_⟩
    exact (update_of_ne hji ..).trans (hothers j hji)

theorem setData_held (h : Held s i b x) (hset : setData i y s = .ok () t) :
    Went c s t ∧ t.written = s.written ∧ Held t i b y ∧
      ∀ j d z, j ≠ i → Held s j d z → Held t j d z := by
  have hruns : Runs c s t := Runs.one (a := .setData i y) h.locked hset
  obtain rfl := setData_eq hset
  refine ⟨⟨hruns, rfl, rfl⟩, rfl, ?_, ?_⟩
  · constructor
    · simp [h.locked]
    · simp [h.dev]
    · simp [h.blockno]
    · simp
  · intro j d z hji hj
    exact hj.of_eq (update_of_ne hji ..)

theorem bwrite_held (h : Held s i b x) (hwrite : bwrite c i s = .ok () t) :
    Went c s t ∧ t.written = update s.written b x ∧ Held t i b x ∧
      ∀ j d z, j ≠ i → Held s j d z → Held t j d z := by
  have hruns : Runs c s t := Runs.one (a := .bwrite i) h.locked hwrite
  obtain ⟨-, -, -, rfl⟩ := bwrite_eq hwrite
  refine ⟨⟨hruns, rfl, rfl⟩, ?_, ?_, ?_⟩
  · rw [← h.blockno, ← h.data]
  · constructor
    · simp [h.locked]
    · simp [h.dev]
    · simp [h.blockno]
    · simp [h.data]
  · intro j d z hji hj
    exact hj.of_eq (update_of_ne hji ..)

theorem brelse_held (h : Held s i b x) (hdata : s.written b = x) (hrel : brelse i s = .ok () t) :
    Went c s t ∧ t.written = s.written ∧ ∀ j d z, j ≠ i → Held s j d z → Held t j d z := by
  obtain ⟨_, s₁, hrelease, hput⟩ := bind_eq_ok hrel
  have hruns : Runs c s s₁ := by
    refine Runs.one (a := .release i) ⟨h.locked, ?_⟩ hrelease
    rw [h.blockno, h.data, hdata]
  obtain rfl := release_eq hrelease
  have hruns' := Runs.one (c := c) (a := .put i) List.mem_cons_self hput
  obtain ⟨r, -, rfl⟩ := put_eq hput
  refine ⟨⟨hruns.trans hruns', rfl, rfl⟩, rfl, ?_⟩
  intro j d z hji hj
  apply hj.of_eq
  dsimp only
  rw [update_of_ne hji, update_of_ne hji]

/-! ### The commit -/

/-- A block is copied: both are read, the second is written, and both are given back. -/
theorem copy_held (h : Coherent c s) (hi : Held s i b (s.written b)) (hj : Held s j d y)
    (hij : i ≠ j) {s₁ s₂ : State} (hset : setData j (s.written b) s = .ok () s₁)
    (hwrite : bwrite c j s₁ = .ok () s₂) :
    Went c s s₂ ∧ s₂.written = update s.written d (s.written b) ∧ s₂.written b = s.written b ∧
      Held s₂ i b (s.written b) ∧ Held s₂ j d (s.written b) := by
  obtain ⟨hwent₁, hwritten₁, hj₁, hothers₁⟩ := setData_held (c := c) hj hset
  obtain ⟨hwent₂, hwritten₂, hj₂, hothers₂⟩ := bwrite_held hj₁ hwrite
  have hi₂ := hothers₂ i b _ hij (hothers₁ i b _ hij hi)
  rw [hwritten₁] at hwritten₂
  refine ⟨hwent₁.trans hwent₂, hwritten₂, ?_, hi₂, hj₂⟩
  rw [hwritten₂, update_of_ne (h.ne hi hj hij)]

theorem logOne_writes (h : Coherent c s) {n : ℕ} (hone : logOne c n s = .ok () t) :
    Went c s t ∧
      t.written = update s.written (c.slot n) (s.written (s.lh.getD n 0)) := by
  obtain ⟨i, s₁, hto, hone⟩ := bind_eq_ok hone
  obtain ⟨hwent₁, hwritten₁, -, hi₁, -⟩ := h.bread hto
  have h₁ := h.runs hwent₁.runs
  rw [run_get_bind, hwent₁.lh] at hone
  obtain ⟨j, s₂, hfrom, hone⟩ := bind_eq_ok hone
  obtain ⟨hwent₂, hwritten₂, -, hj₂, hothers₂⟩ := h₁.bread hfrom
  have h₂ := h₁.runs hwent₂.runs
  obtain ⟨hij, hi₂⟩ := hothers₂ i _ _ hi₁
  rw [hwritten₁] at hwritten₂ hj₂
  rw [← hwritten₂] at hj₂
  rw [run_get_bind, hj₂.data] at hone
  obtain ⟨_, s₃, hset, hone⟩ := bind_eq_ok hone
  obtain ⟨_, s₄, hwrite, hone⟩ := bind_eq_ok hone
  obtain ⟨hwent₄, hwritten₄, hsame₄, hj₄, hi₄⟩ := copy_held h₂ hj₂ hi₂ hij.symm hset hwrite
  obtain ⟨_, s₅, hrelj, hreli⟩ := bind_eq_ok hone
  obtain ⟨hwent₅, hwritten₅, hothers₅⟩ := brelse_held (c := c) hj₄ hsame₄ hrelj
  have hi₅ := hothers₅ i _ _ hij hi₄
  have hdata : s₅.written (c.slot n) = s₂.written (s.lh.getD n 0) := by
    rw [hwritten₅, hwritten₄, update_self]
  obtain ⟨hwent₆, hwritten₆, -⟩ := brelse_held (c := c) hi₅ hdata hreli
  refine ⟨hwent₁.trans (hwent₂.trans (hwent₄.trans (hwent₅.trans hwent₆))), ?_⟩
  rw [hwritten₆, hwritten₅, hwritten₄, hwritten₂]

theorem installBlock_writes (h : Coherent c s) {n : ℕ} (hone : installBlock c n s = .ok () t) :
    Went c s t ∧
      t.written = update s.written (s.lh.getD n 0) (s.written (c.slot n)) := by
  obtain ⟨i, s₁, hlog, hone⟩ := bind_eq_ok hone
  obtain ⟨hwent₁, hwritten₁, -, hi₁, -⟩ := h.bread hlog
  have h₁ := h.runs hwent₁.runs
  rw [run_get_bind, hwent₁.lh] at hone
  obtain ⟨j, s₂, hdst, hone⟩ := bind_eq_ok hone
  obtain ⟨hwent₂, hwritten₂, -, hj₂, hothers₂⟩ := h₁.bread hdst
  have h₂ := h₁.runs hwent₂.runs
  obtain ⟨hij, hi₂⟩ := hothers₂ i _ _ hi₁
  rw [hwritten₁] at hwritten₂ hj₂
  rw [← hwritten₂] at hi₂
  rw [run_get_bind, hi₂.data] at hone
  obtain ⟨_, s₃, hset, hone⟩ := bind_eq_ok hone
  obtain ⟨_, s₄, hwrite, hone⟩ := bind_eq_ok hone
  obtain ⟨hwent₄, hwritten₄, hsame₄, hi₄, hj₄⟩ := copy_held h₂ hi₂ hj₂ hij hset hwrite
  obtain ⟨_, s₅, hreli, hrelj⟩ := bind_eq_ok hone
  obtain ⟨hwent₅, hwritten₅, hothers₅⟩ := brelse_held (c := c) hi₄ hsame₄ hreli
  have hj₅ := hothers₅ j _ _ hij.symm hj₄
  have hdata : s₅.written (s.lh.getD n 0) = s₂.written (c.slot n) := by
    rw [hwritten₅, hwritten₄, update_self]
  obtain ⟨hwent₆, hwritten₆, -⟩ := brelse_held (c := c) hj₅ hdata hrelj
  refine ⟨hwent₁.trans (hwent₂.trans (hwent₄.trans (hwent₅.trans hwent₆))), ?_⟩
  rw [hwritten₆, hwritten₅, hwritten₄, hwritten₂]

theorem writeHead_writes (h : Coherent c s) (hhead : writeHead c s = .ok () t) :
    Went c s t ∧ ∃ x, t.written = update s.written c.start x := by
  obtain ⟨i, s₁, hread, hhead⟩ := bind_eq_ok hhead
  obtain ⟨hwent₁, hwritten₁, -, hi₁, -⟩ := h.bread hread
  rw [run_get_bind, run_get_bind] at hhead
  obtain ⟨_, s₂, hset, hhead⟩ := bind_eq_ok hhead
  obtain ⟨hwent₂, hwritten₂, hi₂, -⟩ := setData_held (c := c) hi₁ hset
  obtain ⟨_, s₃, hwrite, hrel⟩ := bind_eq_ok hhead
  obtain ⟨hwent₃, hwritten₃, hi₃, -⟩ := bwrite_held hi₂ hwrite
  obtain ⟨hwent₄, hwritten₄, -⟩ := brelse_held (c := c) hi₃ (by rw [hwritten₃, update_self]) hrel
  refine ⟨hwent₁.trans (hwent₂.trans (hwent₃.trans hwent₄)),
    putHead (s₁.buf i).data s₁.lh, ?_⟩
  rw [hwritten₄, hwritten₃, hwritten₂, hwritten₁]

/-- The block of the header, or one of those for the logged blocks. -/
def Config.InLog (c : Config) (b : BlockNo) : Prop := b = c.start ∨ ∃ n < LOGSIZE, b = c.slot n

theorem Config.slot_inj {n m : ℕ} (hn : n < LOGSIZE) (hm : m < LOGSIZE) (h : c.slot n = c.slot m) :
    n = m := by
  have hlog : LOGSIZE = 30 := rfl
  rw [Config.slot, Config.slot, UInt32.add_left_inj, UInt32.add_right_inj] at h
  have h := congrArg UInt32.toNat h
  simp only [UInt32.toNat_ofNat'] at h
  omega

theorem Config.slot_ne_start {n : ℕ} (hn : n < LOGSIZE) : c.slot n ≠ c.start := by
  have hlog : LOGSIZE = 30 := rfl
  intro h
  have h := congrArg UInt32.toNat h
  simp only [Config.slot, UInt32.toNat_add, UInt32.toNat_ofNat', UInt32.reduceToNat] at h
  omega

/-- The blocks that are logged are home, outside the log area. -/
def Homes (c : Config) (s : State) : Prop := ∀ b ∈ s.lh, ¬ c.InLog b

theorem Homes.getD (h : Homes c s) {n : ℕ} (hn : n < s.lh.length) :
    ¬ c.InLog (s.lh.getD n 0) := by
  rw [List.getD_eq_getElem _ _ hn]
  exact h _ (List.getElem_mem hn)

/-- After `write_log` the log area has what was last written to the logged blocks. -/
theorem writeLog_writes (h : Coherent c s) (hle : s.lh.length ≤ LOGSIZE)
    (hlog : writeLog c s = .ok () t) :
    Went c s t ∧ (Homes c s → (∀ b, ¬ c.InLog b → t.written b = s.written b) ∧
      ∀ n < s.lh.length, t.written (c.slot n) = s.written (s.lh.getD n 0)) := by
  rw [writeLog, run_get_bind] at hlog
  refine forM_eq_ok (I := fun k u => Went c s u ∧ (Homes c s →
    (∀ b, ¬ c.InLog b → u.written b = s.written b) ∧
      ∀ n < k, u.written (c.slot n) = s.written (s.lh.getD n 0))) hlog ?_ ?_
  · exact ⟨Went.refl s, fun _ => ⟨fun _ _ => rfl, fun n hn => absurd hn (Nat.not_lt_zero n)⟩⟩
  · rintro k u v hk ⟨hwent, hwritten⟩ hone
    obtain ⟨hwent', hwritten'⟩ := logOne_writes (h.runs hwent.runs) hone
    refine ⟨hwent.trans hwent', ?_⟩
    intro hhomes
    obtain ⟨hout, hslots⟩ := hwritten hhomes
    rw [hwent.lh, hout _ (hhomes.getD hk)] at hwritten'
    rw [hwritten']
    constructor
    · intro b hb
      rw [update_of_ne, hout b hb]
      rintro rfl
      exact hb (.inr ⟨k, by omega, rfl⟩)
    · intro n hn
      by_cases hnk : n = k
      · rw [hnk, update_self]
      · rw [update_of_ne]
        · exact hslots n (by omega)
        · intro heq
          exact hnk (c.slot_inj (by omega) (by omega) heq)

/-- `install_trans` writes home what is there already. -/
theorem installTrans_writes (h : Coherent c s)
    (hinstall : installTrans c s = .ok () t) :
    Went c s t ∧ (Homes c s →
      (∀ n < s.lh.length, s.written (c.slot n) = s.written (s.lh.getD n 0)) →
        t.written = s.written) := by
  rw [installTrans, run_get_bind] at hinstall
  refine forM_eq_ok (I := fun _ u => Went c s u ∧ (Homes c s →
    (∀ n < s.lh.length, s.written (c.slot n) = s.written (s.lh.getD n 0)) →
      u.written = s.written)) hinstall ?_ ?_
  · exact ⟨Went.refl s, fun _ _ => rfl⟩
  · rintro k u v hk ⟨hwent, hwritten⟩ hone
    obtain ⟨hwent', hwritten'⟩ := installBlock_writes (h.runs hwent.runs) hone
    refine ⟨hwent.trans hwent', ?_⟩
    intro hhomes hslots
    rw [hwritten', hwent.lh, hwritten hhomes hslots, hslots k hk, update_eq_self]

/-- A commit empties the log, and to the blocks outside the log area it writes nothing new. -/
theorem commit_writes (h : Coherent c s) (hle : s.lh.length ≤ LOGSIZE) (hout : s.outstanding = 0)
    (hcommit : commit c s = .ok () t) :
    Runs c s t ∧ t.lh = [] ∧ (Homes c s → ∀ b, ¬ c.InLog b → t.written b = s.written b) := by
  rw [commit, run_get_bind] at hcommit
  by_cases hlen : s.lh.length > 0
  · rw [if_pos hlen] at hcommit
    obtain ⟨_, s₁, hlog, hcommit⟩ := bind_eq_ok hcommit
    obtain ⟨hwent₁, hwritten₁⟩ := writeLog_writes h hle hlog
    have h₁ := h.runs hwent₁.runs
    obtain ⟨_, s₂, hhead, hcommit⟩ := bind_eq_ok hcommit
    obtain ⟨hwent₂, x, hwritten₂⟩ := writeHead_writes h₁ hhead
    have h₂ := h₁.runs hwent₂.runs
    have hwent := hwent₁.trans hwent₂
    obtain ⟨_, s₃, hinstall, hcommit⟩ := bind_eq_ok hcommit
    obtain ⟨hwent₃, hwritten₃⟩ := installTrans_writes h₂ hinstall
    have h₃ := h₂.runs hwent₃.runs
    obtain ⟨_, s₄, hclear, hcommit⟩ := bind_eq_ok hcommit
    have hruns₄ : Runs c s₃ s₄ :=
      Runs.one (a := .clear) ((hwent.trans hwent₃).outstanding.trans hout) hclear
    cases hclear
    obtain ⟨hwent₅, y, hwritten₅⟩ := writeHead_writes (h₃.runs hruns₄) hcommit
    refine ⟨(hwent.trans hwent₃).runs.trans (hruns₄.trans hwent₅.runs), hwent₅.lh, ?_⟩
    intro hhomes b hb
    obtain ⟨hsame, hslots⟩ := hwritten₁ hhomes
    have hhomes₂ : Homes c s₂ := by rwa [Homes, hwent.lh]
    -- The header is neither a logged block nor one of the log's copies.
    have hstart : ∀ d, d ≠ c.start → s₂.written d = s₁.written d := by
      intro d hd
      rw [hwritten₂, update_of_ne hd]
    have hne : ∀ d, ¬ c.InLog d → d ≠ c.start := fun d hd heq => hd (.inl heq)
    rw [hwritten₅, update_of_ne (hne b hb)]
    show s₃.written b = s.written b
    rw [hwritten₃ hhomes₂, hstart b (hne b hb), hsame b hb]
    intro n hn
    rw [hwent.lh] at hn ⊢
    rw [hstart _ (hne _ (hhomes.getD hn)), hsame _ (hhomes.getD hn), ← hslots n hn]
    exact hstart _ (c.slot_ne_start (by omega))
  · rw [if_neg hlen] at hcommit
    cases hcommit
    refine ⟨.start rfl, ?_, fun _ _ _ => rfl⟩
    apply List.eq_nil_of_length_eq_zero
    omega

theorem endOp_writes (h : Coherent c s) (hle : s.lh.length ≤ LOGSIZE) (hpos : 0 < s.outstanding)
    (hend : endOp c s = .ok () t) :
    Runs c s t ∧ (Homes c s → ∀ b, ¬ c.InLog b → t.written b = s.written b) := by
  obtain ⟨_, s₁, hleave, hend⟩ := bind_eq_ok hend
  have hruns : Runs c s s₁ := Runs.one (a := .leaveOp) hpos hleave
  have h₁ := h.runs hruns
  cases hleave
  rw [run_get_bind] at hend
  split_ifs at hend with hout
  · obtain ⟨hruns', -, hwritten⟩ := commit_writes h₁ hle hout hend
    exact ⟨hruns.trans hruns', hwritten⟩
  · cases hend
    exact ⟨hruns, fun _ _ _ => rfl⟩

/-! ### Cache and disk as one array -/

/-- In every state that is reached the list is a ring of all the buffers and no two of them hold the
same block. Whoever gets the lock of a buffer after `bget`, and so whoever returns from `bread`, finds
the contents last written to the block. A step gives another block only to a buffer that nobody uses
and that is not dirty. `end_op` with its commit is a run as well, and leaves the blocks outside the
log as they were. -/
theorem cache_is_disk (hs : Reach (step c) Allowed Booted s) :
    Ringed s.links ∧
    (∀ i j, i ≠ j → (s.buf i).dev ≠ 0 →
      ¬ ((s.buf i).dev = (s.buf j).dev ∧ (s.buf i).blockno = (s.buf j).blockno)) ∧
    (∀ i dev b t, (i, dev, b) ∈ s.waiting → enter c (i, dev, b) s = .ok () t →
      dev = 1 ∧ t.written = s.written ∧ Held t i b (s.written b)) ∧
    (∀ i dev b t, bread c dev b s = .ok i t →
      dev = 1 ∧ t.written = s.written ∧ Held t i b (s.written b)) ∧
    (∀ a t i, Allowed s a → step c s a = .ok t →
      ¬ ((t.buf i).dev = (s.buf i).dev ∧ (t.buf i).blockno = (s.buf i).blockno) →
      (s.buf i).dirty = false ∧ (s.buf i).refcnt = 0 ∧ (s.buf i).locked = false ∧
        s.waiters i = [] ∧ i ∉ s.leaving) ∧
    (∀ t, 0 < s.outstanding → endOp c s = .ok () t → Reach (step c) Allowed Booted t ∧
      (Homes c s → ∀ b, ¬ c.InLog b → t.written b = s.written b)) := by
  obtain ⟨h, hle⟩ := coherent hs
  refine ⟨h.ring, h.apart, ?_, ?_, ?_, ?_⟩
  · intro i dev b t hw henter
    obtain ⟨hdev, hblock⟩ := Prod.ext_iff.1 ((h.each i).asked _ (mem_waiters hw))
    obtain ⟨-, hone, -, rfl⟩ := h.enter_eq henter
    dsimp only at hdev hblock hone
    refine ⟨hdev.trans hone, rfl, ?_⟩
    constructor
    · simp [State.lock]
    · simp [State.lock, hone]
    · simp [State.lock, hblock]
    · simp [State.lock, hblock]
  · intro i dev b t hread
    obtain ⟨-, hwritten, hdev, hheld, -⟩ := h.bread hread
    exact ⟨hdev, hwritten, hheld⟩
  · intro a t i _ ht hne
    rcases (h.frame ht).1 i with hsame | ⟨hrefs, hdirty⟩
    · exact absurd hsame hne
    · exact ⟨hdirty, hrefs, h.idle hrefs⟩
  · intro t hpos hend
    obtain ⟨hruns, hwritten⟩ := endOp_writes h hle hpos hend
    exact ⟨hs.trans hruns, hwritten⟩

instance (s : State) : (a : Act) → Decidable (Allowed s a)
  | .bget _ _ | .beginOp => inferInstanceAs (Decidable True)
  | .enter w => inferInstanceAs (Decidable (w ∈ s.waiting))
  | .setData i _ | .logWrite i | .bwrite i =>
    inferInstanceAs (Decidable ((s.buf i).locked = true))
  | .release i => inferInstanceAs (Decidable
    ((s.buf i).locked = true ∧ (s.buf i).data = s.written (s.buf i).blockno))
  | .put i => inferInstanceAs (Decidable (i ∈ s.leaving))
  | .leaveOp => inferInstanceAs (Decidable (0 < s.outstanding))
  | .clear => inferInstanceAs (Decidable (s.outstanding = 0))

/-- After `binit`, on an empty disk. -/
def boot : State where
  disk := fun _ _ => 0
  buf := fun _ => ⟨0, 0, false, false, false, 0, fun _ => 0⟩
  links := binit
  lh := []
  outstanding := 0
  waiting := []
  leaving := []
  written := fun _ _ => 0

/-- Block 40 has been changed in the log, and another block has been read since: whoever reads block
40 finds the change, which is not on the disk. -/
theorem cache_is_disk_logged : ∃ s, Reach (step ⟨1000, 2, 30⟩) Allowed Booted s ∧
    s.written 40 3 ≠ s.disk 40 3 ∧
    ∀ i t, bread ⟨1000, 2, 30⟩ 1 40 s = .ok i t → Held t i 40 (s.written 40) := by
  have hboot : Booted boot := ⟨rfl, rfl, rfl, rfl, rfl, rfl, fun _ => ⟨rfl, rfl, rfl, rfl, rfl⟩⟩
  have hstart : Reach (step ⟨1000, 2, 30⟩) Allowed Booted boot := .start hboot
  obtain ⟨s, hs, htest⟩ := hstart.of_endsIn (fun s => s.written 40 3 != s.disk 40 3)
    [.beginOp, .bget 1 40, .enter (0, 1, 40), .setData 0 (fun _ => 7), .logWrite 0, .release 0,
      .put 0, .bget 1 41, .enter (1, 1, 41), .release 1, .put 1] (by decide +kernel)
  refine ⟨s, hs, by simpa using htest, ?_⟩
  intro i t hread
  exact ((cache_is_disk hs).2.2.2.1 i 1 40 t hread).2.2

end Xv6Container.Bcache
