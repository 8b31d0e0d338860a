import Mathlib.Logic.Function.Basic
import Mathlib.Data.Fin.Basic

/-! Runs of a partial step function. A step takes a state and an action and either
returns the next state or stops with a reason. `Reach` collects the states of the
runs in which every step meets a side condition on the state before it and the
action; with the trivial condition these are all the runs. An invariant is kept by
every such run as soon as one step keeps it. -/

namespace Xv6Container.Lib

variable {σ α ε : Type*} {step : σ → α → Except ε σ} {guard guard' : σ → α → Prop}
  {init : σ → Prop}

/-- The states of the runs from `init` whose steps all meet `guard`. -/
inductive Reach (step : σ → α → Except ε σ) (guard : σ → α → Prop) (init : σ → Prop) : σ → Prop
  | start {s : σ} (h : init s) : Reach step guard init s
  | next {s t : σ} {a : α} (hs : Reach step guard init s) (hg : guard s a)
      (ht : step s a = .ok t) : Reach step guard init t

/-- The condition every step meets. -/
def always : σ → α → Prop := fun _ _ => True

/-- An invariant is a property of every state reached. -/
theorem Reach.invariant {I : σ → Prop} (h0 : ∀ s, init s → I s)
    (hstep : ∀ s a t, I s → guard s a → step s a = .ok t → I t) {s : σ}
    (hs : Reach step guard init s) : I s := by
  induction hs with
  | start h => exact h0 _ h
  | next _ hg ht ih => exact hstep _ _ _ ih hg ht

/-- A run goes on with a run from where it is. -/
theorem Reach.trans {s t : σ} (hs : Reach step guard init s) (ht : Reach step guard (· = s) t) :
    Reach step guard init t := by
  induction ht with
  | start h =>
    rw [h]
    exact hs
  | next _ hg ht ih => exact .next ih hg ht

/-- A list of actions, without those that cannot be taken. -/
theorem Reach.foldl {s : σ} (hs : Reach step always init s) (as : List α) :
    Reach step always init (as.foldl (fun s a => (step s a).toOption.getD s) s) := by
  induction as generalizing s with
  | nil => exact hs
  | cons a as ih =>
    refine ih ?_
    change Reach step always init ((step s a).toOption.getD s)
    cases ht : step s a with
    | ok t =>
      have hnext : Reach step always init t := .next hs trivial ht
      exact hnext
    | error r => exact hs

/-- A run under a stronger condition is a run under a weaker one. -/
theorem Reach.mono (hg : ∀ s a, guard s a → guard' s a) {s : σ} (hs : Reach step guard init s) :
    Reach step guard' init s := by
  induction hs with
  | start h => exact .start h
  | next _ h ht ih => exact .next ih (hg _ _ h) ht

instance (s : σ) (a : α) : Decidable (always s a) := .isTrue trivial

/-- Run a list of actions, testing the condition on every step and then the last state. -/
def endsIn (step : σ → α → Except ε σ) (guard : σ → α → Prop) [∀ s a, Decidable (guard s a)]
    (test : σ → Bool) : σ → List α → Bool
  | s, [] => test s
  | s, a :: as =>
    decide (guard s a) && match step s a with
      | .ok t => endsIn step guard test t as
      | .error _ => false

/-- A list of actions that passes the tests leads to a state that is reached. -/
theorem Reach.of_endsIn [∀ s a, Decidable (guard s a)] {s : σ} (hs : Reach step guard init s)
    (test : σ → Bool) (as : List α) (h : endsIn step guard test s as = true) :
    ∃ t, Reach step guard init t ∧ test t = true := by
  induction as generalizing s with
  | nil => exact ⟨s, hs, h⟩
  | cons a as ih =>
    simp only [endsIn, Bool.and_eq_true, decide_eq_true_eq] at h
    obtain ⟨ha, h⟩ := h
    split at h
    next t ht => exact ih (.next hs ha ht) h
    next => cases h

end Xv6Container.Lib
