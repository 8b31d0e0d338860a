import Mathlib.Data.Fintype.Basic
import Xv6Container.Lib.Monitor
import Xv6Container.Pipes.Stream

/-! Who sleeps on a pipe. The sections of `pipewrite`, `piperead` and `pipeclose` run in a monitor
whose lock is that of the pipe, so that a `kill` and the other processes may come between the end
of a section and the sleep. -/

namespace Xv6Container.Pipes

open Lib Monitor

/-- The calls that take the lock of the pipe. -/
inductive Frame where
  | call (c : Call)
  | pipeclose (writable : Bool)

abbrev Sec := Section Pipe Chan Frame ℤ

namespace Sec

def pipewrite (killed : Bool) (p : Pipe) (addr : ℕ → Byte) (n : ℤ) (i : ℕ) : Sec :=
  let (j, q) := p.writeLoop addr (n.toNat - i) i
  if (j : ℤ) < n then
    if !q.readopen || killed then ⟨q, none, .back (-1)⟩
    else ⟨q, some .nread, .sleep .nwrite (.call (.pipewrite addr n j))⟩
  else ⟨q, some .nread, .back n⟩

def piperead (killed : Bool) (p : Pipe) (n : ℤ) : Sec :=
  if p.empty && p.writeopen then
    if killed then ⟨p, none, .back (-1)⟩ else ⟨p, none, .sleep .nread (.call (.piperead n))⟩
  else
    let (l, q) := p.readLoop n.toNat
    ⟨q, some .nwrite, .back l.length⟩

def pipeclose (p : Pipe) (writable : Bool) : Sec :=
  ⟨p.close writable, some (if writable then .nread else .nwrite), .back 0⟩

end Sec

variable {ι : Type*}

/-- A pipe whose page has been freed runs no section. -/
def body (killed : Bool) (_ : ι) (p : Pipe) (l : Frame) : Option Sec :=
  if p.freed then none
  else
    match l with
    | .call (.pipewrite addr n i) => some (Sec.pipewrite killed p addr n i)
    | .call (.piperead n) => some (Sec.piperead killed p n)
    | .pipeclose writable => some (Sec.pipeclose p writable)

abbrev St (ι : Type*) := State ι Pipe Chan Frame ℤ

/-- `pipealloc` has made the pipe. -/
structure Start (s : St ι) : Prop extends Fresh s where
  data : ∃ data, s.data = Pipe.pipealloc data

variable [DecidableEq ι]

/-- All of a section at once: the data, the wakeup, and the sleep or the return. -/
def Sec.run (s : Sys ι) (p : ι) (e : Sec) : Sys ι :=
  let t := match e.wake with
    | some c => { s with pipe := e.data }.wakeup c
    | none => { s with pipe := e.data }
  match e.after with
  | .sleep c (.call call) => t.sleep p c call
  | .sleep _ (.pipeclose _) => t
  | .back r => t.back p r

/-- A section without interruption is a step of the coarser system. -/
theorem pipewrite_eq_run (s : Sys ι) (p : ι) (addr : ℕ → Byte) (n : ℤ) (i : ℕ) :
    pipewrite s p addr n i = (Sec.pipewrite (s.killed p) s.pipe addr n i).run s p := by
  unfold pipewrite Sec.pipewrite
  dsimp only
  split
  · split <;> rfl
  · rfl

theorem piperead_eq_run (s : Sys ι) (p : ι) (n : ℤ) :
    piperead s p n = (Sec.piperead (s.killed p) s.pipe n).run s p := by
  unfold piperead Sec.piperead
  split
  · split <;> rfl
  · rfl

/-! ### The loop of `pipewrite` -/

namespace Pipe
variable {p q : Pipe} {addr : ℕ → Byte} {k i j : ℕ}

theorem writeLoop_full (h : p.full = true) : p.writeLoop addr k i = (i, p) := by
  cases k with
  | zero => rfl
  | succ k => rw [writeLoop, if_pos h]

/-- The loop passes all bytes or ends with a full pipe. -/
theorem writeLoop_stops (h : p.writeLoop addr k i = (j, q)) : j = i + k ∨ q.full = true := by
  induction k generalizing p i with
  | zero =>
    cases h
    exact .inl rfl
  | succ k ih =>
    rw [writeLoop] at h
    split at h
    next hfull =>
      cases h
      exact .inr hfull
    next =>
      rcases ih h with rfl | hfull
      · exact .inl (by omega)
      · exact .inr hfull

/-- What fits is stored. -/
theorem writeLoop_fits (hk : p.ring.count + k ≤ PIPESIZE) :
    (p.writeLoop addr k i).1 = i + k := by
  induction k generalizing p i with
  | zero => rfl
  | succ k ih =>
    have hcount : (p.store (addr i)).ring.count = p.ring.count + 1 := by
      rw [ring_store]
      apply Ring.count_put
      simp only [PIPESIZE] at hk
      omega
    rw [writeLoop, if_neg (by rw [full_iff]; omega), ih (by omega)]
    omega

theorem writeLoop_ends (p : Pipe) (addr : ℕ → Byte) (k i : ℕ) :
    (p.writeLoop addr k i).2.readopen = p.readopen := by
  induction k generalizing p i with
  | zero => rfl
  | succ k ih =>
    rw [writeLoop]
    split
    · rfl
    · exact ih ..

end Pipe

/-! ### Sleepers -/

/-- A reader has to wait for an open pipe that is empty, and a writer for one that is full. -/
def Waits : Chan → Frame → Pipe → Prop
  | .nread, .call (.piperead _), p => p.empty = true ∧ p.writeopen = true
  | .nwrite, .call (.pipewrite ..), p => p.full = true ∧ p.readopen = true
  | _, _, _ => False

theorem Waits.empty {l : Frame} {p : Pipe} (h : Waits .nread l p) :
    p.empty = true ∧ p.writeopen = true := by
  cases l with
  | call x => cases x <;> first | exact h | cases h
  | pipeclose => cases h

theorem Waits.full {l : Frame} {p : Pipe} (h : Waits .nwrite l p) :
    p.full = true ∧ p.readopen = true := by
  cases l with
  | call x => cases x <;> first | exact h | cases h
  | pipeclose => cases h

/-- A wait ends only with the contents of the pipe or the end of the other side. -/
theorem Waits.congr {c : Chan} {l : Frame} {p q : Pipe} (h : Waits c l p) (hring : q.ring = p.ring)
    (hr : c = .nwrite → q.readopen = p.readopen) (hw : c = .nread → q.writeopen = p.writeopen) :
    Waits c l q := by
  cases c with
  | nread =>
    have hempty : q.empty = p.empty := by
      rw [Bool.eq_iff_iff, Pipe.empty_iff, Pipe.empty_iff, hring]
    cases l with
    | call x => cases x <;> first | exact ⟨hempty.trans h.1, (hw rfl).trans h.2⟩ | cases h
    | pipeclose => cases h
  | nwrite =>
    have hfull : q.full = p.full := by
      rw [Bool.eq_iff_iff, Pipe.full_iff, Pipe.full_iff, hring]
    cases l with
    | call x => cases x <;> first | exact ⟨hfull.trans h.1, (hr rfl).trans h.2⟩ | cases h
    | pipeclose => cases h

omit [DecidableEq ι] in
theorem waits_of_sleep (k : Bool) (p : ι) (d : Pipe) (l : Frame) (e : Sec) (c : Chan) (m : Frame)
    (he : body k p d l = some e) (ha : e.after = .sleep c m) : Waits c m e.data := by
  unfold body at he
  split_ifs at he
  cases l with
  | call x =>
    cases x with
    | pipewrite addr n i =>
      cases he
      unfold Sec.pipewrite at ha ⊢
      cases hloop : d.writeLoop addr (n.toNat - i) i with
      | mk j q =>
        simp only [hloop] at ha ⊢
        split_ifs at ha ⊢ with hj hopen
        cases ha
        have hopen : q.readopen = true := by
          rw [Bool.or_eq_true, Bool.not_eq_true', not_or, Bool.not_eq_false] at hopen
          exact hopen.1
        rcases Pipe.writeLoop_stops hloop with rfl | hfull
        · omega
        · exact ⟨hfull, hopen⟩
    | piperead n =>
      cases he
      unfold Sec.piperead at ha ⊢
      split_ifs at ha ⊢ with hwait
      cases ha
      rwa [Bool.and_eq_true] at hwait
  | pipeclose writable =>
    cases he
    cases ha

/-- Whether a process sleeps on a channel, or is about to. -/
def SleepsOn (s : St ι) (c : Chan) : Prop := ∃ q, (s.pc q).target.map Prod.fst = some c

/-- A `pipewrite` that a reader waits for fits in the pipe, unless the pipe is open and the writer
is not killed: the loop is left through `return -1` without a wakeup. -/
def Served (s : St ι) : Lib.Monitor.Act ι Frame → Prop
  | .enter p =>
    match s.pc p with
    | .entering (.call (.pipewrite _ n i)) =>
      SleepsOn s .nread → s.killed p = true ∨ s.data.readopen = false → n ≤ i + PIPESIZE
    | _ => True
  | _ => True

instance [Fintype ι] (s : St ι) (c : Chan) : Decidable (SleepsOn s c) :=
  inferInstanceAs (Decidable (∃ q, (s.pc q).target.map Prod.fst = some c))

instance [Fintype ι] (s : St ι) (a : Lib.Monitor.Act ι Frame) : Decidable (Served s a) := by
  unfold Served
  cases a with
  | enter p =>
    dsimp only
    split <;> infer_instance
  | _ => exact .isTrue trivial

omit [DecidableEq ι] in
/-- A section that ends a wait calls `wakeup`. -/
theorem careful (s : St ι) (a : Lib.Monitor.Act ι Frame) (hg : Served s a) : Careful Waits body s a := by
  intro p l e ha hp he r c m hr hw
  subst ha
  unfold body at he
  split_ifs at he
  cases l with
  | call x =>
    cases x with
    | pipewrite addr n i =>
      cases he
      have hg : SleepsOn s .nread → s.killed p = true ∨ s.data.readopen = false →
          n ≤ i + PIPESIZE := by
        simpa only [Served, hp] using hg
      have hends := Pipe.writeLoop_ends s.data addr (n.toNat - i) i
      unfold Sec.pipewrite
      cases hloop : s.data.writeLoop addr (n.toNat - i) i with
      | mk j q =>
        rw [hloop] at hends
        simp only
        cases c with
        | nwrite =>
          -- a writer waits, so the pipe is full and the loop stores nothing
          rw [Pipe.writeLoop_full hw.full.1] at hloop
          cases hloop
          left
          split_ifs <;> exact hw
        | nread =>
          split_ifs with hj hopen
          · -- the exit without a wakeup: the pipe was empty and what is to be written fits
            exfalso
            have hle := hg ⟨r, by rw [hr]; rfl⟩ (by
              rw [Bool.or_eq_true, Bool.not_eq_true', hends] at hopen
              exact hopen.symm)
            have hfits : (s.data.writeLoop addr (n.toNat - i) i).1 = i + (n.toNat - i) :=
              Pipe.writeLoop_fits (by rw [Pipe.empty_iff.1 hw.empty.1]; omega)
            rw [hloop] at hfits
            dsimp only at hfits
            omega
          · exact .inr rfl
          · exact .inr rfl
    | piperead n =>
      cases he
      unfold Sec.piperead
      split_ifs with hwait
      · exact .inl hw
      · exact .inl hw
      · cases c with
        | nwrite => exact .inr rfl
        | nread =>
          exfalso
          apply hwait
          rw [Bool.and_eq_true]
          exact hw.empty
  | pipeclose writable =>
    cases he
    cases writable with
    | false =>
      cases c with
      | nread => exact .inl (hw.congr rfl nofun fun _ => rfl)
      | nwrite => exact .inr rfl
    | true =>
      cases c with
      | nread => exact .inr rfl
      | nwrite => exact .inl (hw.congr rfl (fun _ => rfl) nofun)

/-! ### Runs -/

/-- While the lock of the pipe is free, no reader sleeps that has something to read or whose writers
are gone, and no writer that has room or whose readers are gone. -/
theorem sleepers_of_served {s : St ι} (hs : Reach (Lib.Monitor.step body) Served Start s)
    (hfree : s.lk = none) :
    (∀ p c n, s.pc p = .asleep c (.call (.piperead n)) →
      s.data.ring.count = 0 ∧ s.data.writeopen = true) ∧
    ∀ p c addr n i, s.pc p = .asleep c (.call (.pipewrite addr n i)) →
      s.data.ring.count = PIPESIZE ∧ s.data.readopen = true := by
  have hwaits {p : ι} {c : Chan} {l : Frame} (hp : s.pc p = .asleep c l) : Waits c l s.data :=
    waits_of_free (fun s h => h.toFresh) waits_of_sleep (fun s a _ => careful s a) hs hfree hp
  refine ⟨fun p c n hp => ?_, fun p c addr n i hp => ?_⟩
  · have hw := hwaits hp
    cases c with
    | nread => exact ⟨Pipe.empty_iff.1 hw.1, hw.2⟩
    | nwrite => cases hw
  · have hw := hwaits hp
    cases c with
    | nread => cases hw
    | nwrite => exact ⟨Pipe.full_iff.1 hw.1, hw.2⟩

/-- A reader and a writer. -/
def fresh : St (Fin 2) :=
  ⟨Pipe.pipealloc fun _ => 0, none, none, fun _ => .out, fun _ => false, fun _ => []⟩

theorem fresh_start : Start fresh := ⟨⟨rfl, rfl, fun _ => rfl, fun _ => rfl⟩, ⟨_, rfl⟩⟩

/-- A reader that sleeps. -/
def dozes : Pc Chan Frame ℤ → Bool
  | .asleep _ (.call (.piperead _)) => true
  | _ => false

theorem eq_asleep_of_dozes {x : Pc Chan Frame ℤ} (h : dozes x = true) :
    ∃ c n, x = .asleep c (.call (.piperead n)) := by
  unfold dozes at h
  split at h
  · exact ⟨_, _, rfl⟩
  · cases h

/-- The reader sleeps on the empty pipe until a write has come. -/
theorem sleepers_waiting : ∃ s : St (Fin 2), ∃ c n,
    s.pc 0 = .asleep c (.call (.piperead n)) ∧ s.data.ring.count = 0 := by
  have hstart : Reach (Lib.Monitor.step body) Served Start fresh := .start fresh_start
  obtain ⟨s, hs, htest⟩ := hstart.of_endsIn (fun s => s.lk.isNone && dozes (s.pc 0))
    [.call 1 (.call (.pipewrite (fun _ => 7) 3 0)), .enter 1, .wakeup 1, .leave 1,
      .call 0 (.call (.piperead 3)), .enter 0, .wakeup 0, .leave 0,
      .call 0 (.call (.piperead 3)), .enter 0, .hand 0, .commit 0, .doze 0] (by decide +kernel)
  rw [Bool.and_eq_true, Option.isNone_iff_eq_none] at htest
  obtain ⟨c, n, hp⟩ := eq_asleep_of_dozes htest.2
  exact ⟨s, c, n, hp, ((sleepers_of_served hs htest.1).1 0 c n hp).1⟩

/-- A writer that has been killed fills the pipe and returns, and the reader sleeps on. -/
theorem reader_left_asleep : ¬∀ s : St (Fin 2),
    Reach (Lib.Monitor.step body) always Start s → s.lk = none →
      ∀ p c n, s.pc p = .asleep c (.call (.piperead n)) → s.data.ring.count = 0 := by
  intro h
  have hstart : Reach (Lib.Monitor.step body) always Start fresh := .start fresh_start
  obtain ⟨s, hs, htest⟩ := hstart.of_endsIn
    (fun s => s.lk.isNone && dozes (s.pc 0) && decide (s.data.ring.count = PIPESIZE))
    [.call 0 (.call (.piperead 1)), .enter 0, .hand 0, .commit 0, .doze 0, .kill 1,
      .call 1 (.call (.pipewrite (fun _ => 7) 513 0)), .enter 1, .leave 1] (by decide +kernel)
  simp only [Bool.and_eq_true, Option.isNone_iff_eq_none, decide_eq_true_eq] at htest
  obtain ⟨c, n, hp⟩ := eq_asleep_of_dozes htest.1.2
  have hzero := h s hs htest.1.1 0 c n hp
  rw [htest.2] at hzero
  cases hzero

end Xv6Container.Pipes
