import Mathlib.Data.UInt
import Xv6Container.Lib.Reach

/-! The log of the scheduler as a process sees it that polls `check_schedule_log`. The scheduler turns
the log off by itself; that it has been on is remembered by a counter, which is compared with 1 and
which `memory_log_on` counts up as well. -/

namespace Xv6Container.Containers.Polling

open Lib

/-- `entered` are the calls of `scheduler_log_on` that have set the flag but not counted yet, and
`called` says whether one has returned. -/
structure State where
  schedulerLog : ℤ
  schedulerHistory : UInt32
  memoryLog : ℤ
  memoryHistory : UInt32
  entered : ℕ
  called : Bool

/-- `round fault` is the end of a round of the scheduler; `fault` says whether some container is not
done with its log. -/
inductive Act
  | switchSchedulerLog
  | countSchedulerLog
  | memoryLogOn
  | checkScheduleLog (arg : ℤ)
  | round (fault : Bool)

variable {s t : State} {a : Act}

/-- `check_schedule_log(arg)` -/
def State.checkScheduleLog (s : State) (arg : ℤ) : ℤ :=
  if arg = s.schedulerLog ∨ arg = 1 ∧ s.schedulerHistory = 1 then 1 else 0

/-- The two statements of `sys_scheduler_log_on` are steps of their own, since the scheduler may come
between them. -/
def step (s : State) : Act → Except Unit State
  | .switchSchedulerLog => .ok { s with schedulerLog := 1, entered := s.entered + 1 }
  | .countSchedulerLog =>
    if s.entered = 0 then .error ()
    else .ok { s with
      schedulerHistory := s.schedulerHistory + 1, entered := s.entered - 1, called := true }
  | .memoryLogOn => .ok { s with
      memoryLog := 1
      memoryHistory := s.memoryHistory + 1
      schedulerHistory := s.schedulerHistory + 1 }
  | .checkScheduleLog _ => .ok s
  | .round fault =>
    if s.schedulerLog ≠ 0 ∧ fault = false then .ok { s with schedulerLog := 0 } else .ok s

def boot : State := ⟨0, 0, 0, 0, 0, false⟩

/-- A process that polls after a return of `scheduler_log_on` sees that the log is or has been on. -/
def Seen (s : State) : Prop := s.called = true → s.checkScheduleLog 1 = 1

/-- The flag is 0 or 1. -/
def Flag (s : State) : Prop := s.schedulerLog = 0 ∨ s.schedulerLog = 1

/-- The counter is 1 whenever the log goes off after a call, and it is counted up while the log is off
only if it is 0, or before the first call. -/
def Counts (s : State) : Act → Prop
  | .switchSchedulerLog | .checkScheduleLog _ => True
  | .countSchedulerLog => s.schedulerLog = 0 → s.schedulerHistory = 0
  | .memoryLogOn => s.schedulerLog = 0 → s.called = true → s.schedulerHistory = 0
  | .round fault => s.schedulerLog ≠ 0 → fault = false → s.called = true → s.schedulerHistory = 1

theorem checkScheduleLog_one (s : State) :
    s.checkScheduleLog 1 = 1 ↔ 1 = s.schedulerLog ∨ s.schedulerHistory = 1 := by
  rw [State.checkScheduleLog]
  constructor
  · intro h
    by_contra hno
    rw [if_neg (by tauto)] at h
    cases h
  · intro h
    rw [if_pos (by tauto)]

theorem seen_iff (hf : Flag s) :
    Seen s ↔ (s.called = true → s.schedulerLog = 0 → s.schedulerHistory = 1) := by
  rw [Seen, checkScheduleLog_one]
  constructor
  · intro h hcalled hlog
    rcases h hcalled with hone | hhistory
    · rw [hlog] at hone
      cases hone
    · exact hhistory
  · intro h hcalled
    rcases hf with hlog | hlog
    · exact .inr (h hcalled hlog)
    · exact .inl hlog.symm

theorem Flag.step (hf : Flag s) (ht : step s a = .ok t) : Flag t := by
  cases a with
  | switchSchedulerLog =>
    cases ht
    exact .inr rfl
  | countSchedulerLog =>
    rw [Polling.step] at ht
    split_ifs at ht
    · cases ht
      exact hf
  | memoryLogOn =>
    cases ht
    exact hf
  | checkScheduleLog arg =>
    cases ht
    exact hf
  | round fault =>
    rw [Polling.step] at ht
    split_ifs at ht
    · cases ht
      exact .inl rfl
    · cases ht
      exact hf

theorem add_one_eq_one (x : UInt32) : x + 1 = 1 ↔ x = 0 := by
  constructor
  · intro h
    have hx : x + 1 = 0 + 1 := h
    exact (UInt32.add_left_inj 1).1 hx
  · rintro rfl
    rfl

/-- A step goes on being seen exactly if it counts as it should. -/
theorem seen_step_iff (hf : Flag s) (hs : Seen s) (ht : step s a = .ok t) :
    Seen t ↔ Counts s a := by
  rw [seen_iff (hf.step ht)]
  rw [seen_iff hf] at hs
  cases a with
  | switchSchedulerLog =>
    cases ht
    simp [Counts]
  | countSchedulerLog =>
    rw [step] at ht
    split_ifs at ht
    · cases ht
      simp [Counts]
  | memoryLogOn =>
    cases ht
    simp only [Counts, add_one_eq_one]
    tauto
  | checkScheduleLog arg =>
    cases ht
    simpa [Counts] using hs
  | round fault =>
    rw [step] at ht
    split_ifs at ht with hoff
    · cases ht
      simp [Counts, hoff.1, hoff.2]
    · cases ht
      simp only [Counts]
      tauto

/-- In every run that keeps the counter at 1 so, no poller misses the log. -/
theorem seen_of_counts (hs : Reach step Counts (· = boot) s) : Seen s := by
  have hall : Flag s ∧ Seen s := by
    apply hs.invariant
    · rintro s rfl
      exact ⟨.inl rfl, nofun⟩
    · rintro s a t ⟨hf, hseen⟩ hcounts ht
      exact ⟨hf.step ht, (seen_step_iff hf hseen ht).2 hcounts⟩
  exact hall.2

instance (s : State) : (a : Act) → Decidable (Counts s a)
  | .switchSchedulerLog | .checkScheduleLog _ => inferInstanceAs (Decidable True)
  | .countSchedulerLog =>
    inferInstanceAs (Decidable (s.schedulerLog = 0 → s.schedulerHistory = 0))
  | .memoryLogOn => inferInstanceAs
    (Decidable (s.schedulerLog = 0 → s.called = true → s.schedulerHistory = 0))
  | .round fault => inferInstanceAs (Decidable
    (s.schedulerLog ≠ 0 → fault = false → s.called = true → s.schedulerHistory = 1))

/-- The log is switched on once and goes off. -/
theorem seen_after_round : ∃ s, Reach step Counts (· = boot) s ∧ s.schedulerLog = 0 ∧
    s.called = true ∧ s.checkScheduleLog 1 = 1 := by
  have hstart : Reach step Counts (· = boot) boot := .start rfl
  obtain ⟨s, hs, htest⟩ := hstart.of_endsIn (fun s => s.schedulerLog == 0 && s.called)
    [.switchSchedulerLog, .countSchedulerLog, .checkScheduleLog 1, .round false] (by decide)
  rw [Bool.and_eq_true, beq_iff_eq] at htest
  exact ⟨s, hs, htest.1, htest.2, seen_of_counts hs htest.2⟩

/-- The log is switched on a second time: once it is off again a poller does not see it any more. -/
theorem second_log_is_missed : ¬ ∀ s, Reach step always (· = boot) s → Seen s := by
  intro h
  have hstart : Reach step always (· = boot) boot := .start rfl
  obtain ⟨s, hs, htest⟩ := hstart.of_endsIn (fun s => s.called && s.checkScheduleLog 1 != 1)
    [.switchSchedulerLog, .countSchedulerLog, .round false, .switchSchedulerLog,
      .countSchedulerLog, .round false] (by decide)
  rw [Bool.and_eq_true, bne_iff_ne] at htest
  exact htest.2 (h s hs htest.1)

end Xv6Container.Containers.Polling
