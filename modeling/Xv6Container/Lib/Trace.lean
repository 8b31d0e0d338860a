import Xv6Container.Lib.Reach

/-! Runs that are watched. An observation says of a step, by the state before it and the
action, what is to be recorded of it, if anything; a trace is a run with the list of what has
been recorded. -/

namespace Xv6Container.Lib

variable {σ α ε ω : Type*} {step : σ → α → Except ε σ} {guard : σ → α → Prop}
  {obs : σ → α → Option ω} {init : σ → Prop}

inductive Trace (step : σ → α → Except ε σ) (guard : σ → α → Prop) (obs : σ → α → Option ω)
    (s : σ) : List ω → σ → Prop
  | nil : Trace step guard obs s [] s
  | next {l : List ω} {t u : σ} {a : α} (ht : Trace step guard obs s l t) (hg : guard t a)
      (hu : step t a = .ok u) : Trace step guard obs s (l ++ (obs t a).toList) u

/-- What has been recorded and the state reached stay in a relation that every step keeps. -/
theorem Trace.invariant {s t : σ} {l : List ω} {I : List ω → σ → Prop} (h0 : I [] s)
    (hstep : ∀ l t a u, I l t → guard t a → step t a = .ok u → I (l ++ (obs t a).toList) u)
    (h : Trace step guard obs s l t) : I l t := by
  induction h with
  | nil => exact h0
  | next _ hg hu ih => exact hstep _ _ _ _ ih hg hu

/-- A trace under a stronger condition is a trace under a weaker one. -/
theorem Trace.mono {guard' : σ → α → Prop} {s t : σ} {l : List ω}
    (hg : ∀ s a, guard s a → guard' s a) (h : Trace step guard obs s l t) :
    Trace step guard' obs s l t := by
  induction h with
  | nil => exact .nil
  | next _ ha hu ih => exact .next ih (hg _ _ ha) hu

/-- A trace is a run. -/
theorem Trace.reach {s t : σ} {l : List ω} (h : Trace step guard obs s l t)
    (hs : Reach step guard init s) : Reach step guard init t := by
  induction h with
  | nil => exact hs
  | next _ hg hu ih => exact .next ih hg hu

/-- Run a list of actions, testing the condition on every step and then the record and the last
state. -/
def watch (step : σ → α → Except ε σ) (guard : σ → α → Prop) [∀ s a, Decidable (guard s a)]
    (obs : σ → α → Option ω) (test : List ω → σ → Bool) : List ω → σ → List α → Bool
  | l, s, [] => test l s
  | l, s, a :: as =>
    decide (guard s a) && match step s a with
      | .ok t => watch step guard obs test (l ++ (obs s a).toList) t as
      | .error _ => false

theorem Trace.of_watch [∀ s a, Decidable (guard s a)] {s t : σ} {l : List ω}
    (hs : Trace step guard obs s l t) (test : List ω → σ → Bool) (as : List α)
    (h : watch step guard obs test l t as = true) :
    ∃ m u, Trace step guard obs s m u ∧ test m u = true := by
  induction as generalizing l t with
  | nil => exact ⟨l, t, hs, h⟩
  | cons a as ih =>
    simp only [watch, Bool.and_eq_true, decide_eq_true_eq] at h
    obtain ⟨ha, h⟩ := h
    split at h
    next u hu => exact ih (.next hs ha hu) h
    next => cases h

end Xv6Container.Lib
