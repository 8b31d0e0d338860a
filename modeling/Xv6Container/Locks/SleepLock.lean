import Xv6Container.Lib.Monitor

/-! Sleep locks (`sleeplock.c`) as a monitor: `lk->lk` is its lock, `lk` its one channel. A process
is known by its `pid`. -/

namespace Xv6Container.Locks

open Lib Monitor

variable {ι : Type*}

/-- `pid` is `none` for the 0 that no process has. -/
structure Sleeplock (ι : Type*) where
  locked : Bool
  pid : Option ι

inductive Call where
  | acquiresleep
  | releasesleep
  | holdingsleep
  deriving DecidableEq, Repr

inductive Result where
  | acquired
  | released
  | holding (r : Bool)
  deriving DecidableEq, Repr

abbrev Sec (ι : Type*) := Section (Sleeplock ι) Unit Call Result

def initsleeplock : Sleeplock ι := ⟨false, none⟩

/-- The test of the loop, and what follows it. -/
def acquiresleep (p : ι) (lk : Sleeplock ι) : Sec ι :=
  if lk.locked then ⟨lk, none, .sleep () .acquiresleep⟩
  else ⟨⟨true, some p⟩, none, .back .acquired⟩

def releasesleep : Sec ι := ⟨⟨false, none⟩, some (), .back .released⟩

variable [DecidableEq ι]

def holdingsleep (p : ι) (lk : Sleeplock ι) : Sec ι :=
  ⟨lk, none, .back (.holding (lk.locked && decide (lk.pid = some p)))⟩

def body (_ : Bool) (p : ι) (lk : Sleeplock ι) : Call → Option (Sec ι)
  | .acquiresleep => some (acquiresleep p lk)
  | .releasesleep => some releasesleep
  | .holdingsleep => some (holdingsleep p lk)

abbrev St (ι : Type*) := State ι (Sleeplock ι) Unit Call Result

abbrev Log := List (Event Call Result)

structure Start (s : St ι) : Prop extends Fresh s where
  data : s.data = initsleeplock

/-- A process is between `acquiresleep` and `releasesleep`: the first has returned, and the second
has not been called since. -/
def between : Log → Bool
  | [] => false
  | .returned .acquired :: _ => true
  | .called .releasesleep :: _ => false
  | _ :: l => between l

/-- `iput` calls `releasesleep` after an `acquiresleep`, `iunlock` and `brelse` after `holdingsleep`
has said that the lock is held, or else they panic. -/
def mayRelease : Log → Bool
  | .returned .acquired :: _ => true
  | .returned (.holding r) :: _ => r
  | _ => false

/-- The callers of `releasesleep`. -/
def Paired (s : St ι) : Act ι Call → Prop
  | .call p .releasesleep => mayRelease (s.log p) = true
  | _ => True

instance (s : St ι) (a : Act ι Call) : Decidable (Paired s a) :=
  match a with
  | .call p .releasesleep => inferInstanceAs (Decidable (mayRelease (s.log p) = true))
  | .call _ .acquiresleep | .call _ .holdingsleep => .isTrue trivial
  | .enter _ | .wakeup _ | .leave _ | .hand _ | .commit _ | .doze _ | .resume _ | .kill _ =>
    .isTrue trivial

/-! ### One process -/

abbrev Place := Pc Unit Call Result

/-- The lock is the process's from where `locked` is set up to where it is cleared. -/
def has : Place → Log → Bool
  | .ending (.back .acquired), _ => true
  | .entering .releasesleep, _ => true
  | _, log => between log

/-- What the place where a process is says of its calls. -/
def Fits : Place → Log → Prop
  | .out, log => mayRelease log = true → between log = true
  | .entering .releasesleep, log => between log = false
  | .waking _ e, _ => e = .back .released
  | .ending (.back (.holding true)), log => between log = true
  | .ending (.sleep _ l), _ | .handing _ l, _ | .committed _ l, _ | .asleep _ l, _ | .woken l, _ =>
    l = .acquiresleep
  | _, _ => True

omit [DecidableEq ι] in
theorem has_wake (x : Place) (log : Log) (hx : Fits x log) :
    has (x.wake ()) log = has x log ∧ Fits (x.wake ()) log := by
  cases x with
  | asleep c l => exact ⟨rfl, hx⟩
  | _ => exact ⟨rfl, hx⟩

theorem has_rouse (x : Place) (log : Log) (hx : Fits x log) :
    has x.rouse log = has x log ∧ Fits x.rouse log := by
  cases x <;> exact ⟨rfl, hx⟩

/-- The record names the process that has the lock. -/
structure Owned (s : St ι) : Prop where
  has : ∀ p, has (s.pc p) (s.log p) = true ↔ s.data.locked = true ∧ s.data.pid = some p
  fits : ∀ p, Fits (s.pc p) (s.log p)

variable {s t : St ι} {a : Act ι Call}

omit [DecidableEq ι] in
/-- Steps that leave the record alone. -/
theorem Owned.calm (hI : Owned s) (hd : t.data = s.data)
    (h : ∀ q, Locks.has (t.pc q) (t.log q) = Locks.has (s.pc q) (s.log q) ∧
      Fits (t.pc q) (t.log q)) : Owned t := by
  refine ⟨fun q => ?_, fun q => (h q).2⟩
  rw [(h q).1, hd, hI.has]

omit [DecidableEq ι] in
theorem Owned.eq {p q : ι} (hI : Owned s) (hp : Locks.has (s.pc p) (s.log p) = true)
    (hq : Locks.has (s.pc q) (s.log q) = true) : p = q := by
  have hp := ((hI.has p).1 hp).2
  rw [((hI.has q).1 hq).2, Option.some_inj] at hp
  exact hp.symm

omit [DecidableEq ι] in
theorem between_returned (r : Result) (log : Log) : has (.ending (.back r)) log =
    between (.returned r :: log) := by
  cases r <;> rfl

/-- One process moves, and the record stays. -/
theorem Owned.set (hI : Owned s) (p : ι) {x : Place} {log : Log} (hd : t.data = s.data)
    (hpc : t.pc = (s.set p x).pc) (hlog : t.log = Function.update s.log p log)
    (hp : Locks.has x log = Locks.has (s.pc p) (s.log p)) (hx : Fits x log) : Owned t := by
  refine hI.calm hd fun q => ?_
  rw [hpc, hlog]
  by_cases hq : q = p
  · subst hq
    rw [set_pc_self, Function.update_self]
    exact ⟨hp, hx⟩
  · rw [set_pc_ne _ hq, Function.update_of_ne hq]
    exact ⟨rfl, hI.fits q⟩

/-- The section that a process runs when it has taken `lk->lk`. -/
theorem Owned.enter (hI : Owned s) {p : ι} {l : Call} {e : Sec ι} (hp : s.pc p = .entering l)
    (he : body (s.killed p) p s.data l = some e) :
    Owned { s.set p e.pc with data := e.data, lk := some p } := by
  have hlog : s.log = Function.update s.log p (s.log p) := (Function.update_eq_self p s.log).symm
  have hfits := hI.fits p
  have hhas := hI.has p
  rw [hp] at hfits hhas
  cases l with
  | acquiresleep =>
    cases he
    by_cases hlocked : s.data.locked = true
    · have he : acquiresleep p s.data = ⟨s.data, none, .sleep () .acquiresleep⟩ := if_pos hlocked
      rw [he]
      exact hI.set p rfl rfl hlog (by rw [hp]; rfl) rfl
    · have he : acquiresleep p s.data = ⟨⟨true, some p⟩, none, .back .acquired⟩ := if_neg hlocked
      rw [he]
      refine ⟨fun q => ?_, fun q => ?_⟩ <;> dsimp only
      · by_cases hq : q = p
        · subst hq
          rw [set_pc_self]
          exact ⟨fun _ => ⟨rfl, rfl⟩, fun _ => rfl⟩
        · rw [set_pc_ne _ hq]
          show Locks.has (s.pc q) (s.log q) = true ↔ _
          rw [hI.has]
          constructor
          · intro h
            exact absurd h.1 hlocked
          · intro h
            exact absurd (Option.some.inj h.2).symm hq
      · by_cases hq : q = p
        · subst hq
          rw [set_pc_self]
          trivial
        · rw [set_pc_ne _ hq]
          exact hI.fits q
  | releasesleep =>
    cases he
    refine ⟨fun q => ?_, fun q => ?_⟩ <;> dsimp only
    · by_cases hq : q = p
      · subst hq
        rw [set_pc_self]
        constructor
        · intro h
          have hbetween : between (s.log q) = true := h
          rw [hfits] at hbetween
          cases hbetween
        · intro h
          cases h.1
      · rw [set_pc_ne _ hq]
        constructor
        · intro h
          exact absurd (hI.eq h (by rw [hp]; rfl)) hq
        · intro h
          cases h.1
    · by_cases hq : q = p
      · subst hq
        rw [set_pc_self]
        rfl
      · rw [set_pc_ne _ hq]
        exact hI.fits q
  | holdingsleep =>
    cases he
    refine hI.set p rfl rfl hlog (by rw [hp]; rfl) ?_
    show Fits (.ending (.back (.holding _))) _
    cases hr : s.data.locked && decide (s.data.pid = some p) with
    | false => trivial
    | true =>
      rw [Bool.and_eq_true, decide_eq_true_eq] at hr
      exact hhas.2 hr

theorem Owned.step (hI : Owned s) (hg : Paired s a) (h : Move body s a t) : Owned t := by
  have hsame (p : ι) : s.log = Function.update s.log p (s.log p) :=
    (Function.update_eq_self p s.log).symm
  cases h with
  | @call p l hp =>
    have hfits := hI.fits p
    rw [hp] at hfits
    cases l with
    | releasesleep =>
      refine hI.set p rfl rfl rfl ?_ rfl
      rw [hp]
      exact (hfits hg).symm
    | acquiresleep => exact hI.set p rfl rfl rfl (by rw [hp]; rfl) trivial
    | holdingsleep => exact hI.set p rfl rfl rfl (by rw [hp]; rfl) trivial
  | @enter p l e hp hlk he => exact hI.enter hp he
  | @wakeup p c e hp ht =>
    have he := hI.fits p
    rw [hp] at he
    cases he
    refine hI.calm rfl fun q => ?_
    by_cases hq : q = p
    · subst hq
      rw [set_pc_self, hp]
      exact ⟨rfl, trivial⟩
    · rw [set_pc_ne _ hq]
      exact has_wake _ _ (hI.fits q)
  | @leave p r hp =>
    have hfits := hI.fits p
    rw [hp] at hfits
    refine hI.set p rfl rfl rfl (by rw [hp, between_returned]; rfl) fun hr => ?_
    cases r with
    | acquired => rfl
    | released => cases hr
    | holding b =>
      cases b with
      | false => cases hr
      | true => exact hfits
  | @hand p c l hp ht =>
    have hl := hI.fits p
    rw [hp] at hl
    exact hI.set p rfl rfl (hsame p) (by rw [hp]; rfl) hl
  | @commit p c l hp =>
    have hl := hI.fits p
    rw [hp] at hl
    exact hI.set p rfl rfl (hsame p) (by rw [hp]; rfl) hl
  | @doze p c l hp =>
    have hl := hI.fits p
    rw [hp] at hl
    exact hI.set p rfl rfl (hsame p) (by rw [hp]; rfl) hl
  | @resume p l hp ht =>
    have hl := hI.fits p
    rw [hp] at hl
    cases hl
    exact hI.set p rfl rfl (hsame p) (by rw [hp]; rfl) trivial
  | @kill p ht =>
    obtain ⟨hhas, hfits⟩ := has_rouse _ _ (hI.fits p)
    exact hI.set p rfl rfl (hsame p) hhas hfits

omit [DecidableEq ι] in
theorem Start.owned (h : Start s) : Owned s := by
  refine ⟨fun p => ?_, fun p => ?_⟩
  · rw [h.pc, h.log, h.data]
    exact ⟨nofun, nofun⟩
  · rw [h.pc, h.log]
    nofun

/-! ### Runs -/

/-- On a locked sleep lock `acquiresleep` has to wait. -/
def Waits (_ : Unit) (_ : Call) (lk : Sleeplock ι) : Prop := lk.locked = true

theorem waits_of_sleep (k : Bool) (p : ι) (lk : Sleeplock ι) (l : Call) (e : Sec ι) (c : Unit)
    (m : Call) (he : body k p lk l = some e) (ha : e.after = .sleep c m) : Waits c m e.data := by
  cases l with
  | acquiresleep =>
    cases he
    unfold acquiresleep at ha ⊢
    split at ha
    next h =>
      rw [if_pos h]
      exact h
    next => cases ha
  | releasesleep => cases he; cases ha
  | holdingsleep => cases he; cases ha

theorem careful (s : St ι) (a : Act ι Call) : Careful Waits body s a := by
  intro p l e _ _ he q c m _ hw
  cases l with
  | acquiresleep =>
    cases he
    have hlocked : s.data.locked = true := hw
    exact .inl (by rw [acquiresleep, if_pos hlocked]; exact hlocked)
  | releasesleep =>
    cases he
    exact .inr rfl
  | holdingsleep =>
    cases he
    exact .inl hw

/-- At most one process is between `acquiresleep` and `releasesleep`, and while both spin locks are
free, nobody sleeps on a sleep lock that is not locked. -/
theorem sleeplock_safe (hs : Reach (step body) Paired Start s) :
    (∀ p q, between (s.log p) = true → between (s.log q) = true → p = q) ∧
      (s.lk = none → s.ptable = none → ∀ p l, s.pc p = .asleep () l → s.data.locked = true) := by
  have hI : Owned s := by
    refine hs.invariant (fun s h => h.owned) fun s a t hI hg h => ?_
    exact hI.step hg (move_of_step h)
  have hhas (p : ι) (h : between (s.log p) = true) : has (s.pc p) (s.log p) = true := by
    unfold has
    split
    · rfl
    · rfl
    · exact h
  refine ⟨fun p q hp hq => hI.eq (hhas p hp) (hhas q hq), fun hlk _ p l hp => ?_⟩
  exact waits_of_free (fun s h => h.toFresh) waits_of_sleep (fun s a _ _ => careful s a) hs hlk hp

/-- Process 0 has the lock and process 1 sleeps on it. -/
theorem sleeplock_safe_taken : ∃ s : St (Fin 2), s.pc 1 = .asleep () .acquiresleep ∧
    s.data.locked = true ∧ between (s.log 0) = true ∧ between (s.log 1) = false := by
  let s₀ : St (Fin 2) := ⟨initsleeplock, none, none, fun _ => .out, fun _ => false, fun _ => []⟩
  have hstart : Reach (step body) Paired Start s₀ :=
    .start ⟨⟨rfl, rfl, fun _ => rfl, fun _ => rfl⟩, rfl⟩
  obtain ⟨s, hs, htest⟩ := hstart.of_endsIn
    (fun s => s.lk.isNone && s.ptable.isNone && decide (s.pc 1 = .asleep () .acquiresleep) &&
      between (s.log 0))
    [.call 0 .acquiresleep, .call 1 .acquiresleep, .enter 0, .leave 0, .enter 1, .hand 1,
      .commit 1, .doze 1] (by decide +kernel)
  simp only [Bool.and_eq_true, Option.isNone_iff_eq_none, decide_eq_true_eq] at htest
  obtain ⟨⟨⟨hlk, ht⟩, hp⟩, hb⟩ := htest
  obtain ⟨hone, hlocked⟩ := sleeplock_safe hs
  refine ⟨s, hp, hlocked hlk ht 1 _ hp, hb, Bool.eq_false_iff.2 fun h => ?_⟩
  cases hone 0 1 hb h

end Xv6Container.Locks
