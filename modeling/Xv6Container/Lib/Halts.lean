import Xv6Container.Lib.Ends

/-! How a program halts from one given state: `Halts Q E r` says of the result `r` of a run that it is
a return in `Q` or a stop that leaves a state in `E` behind. It is the triple of one state. -/

namespace Xv6Container.Lib

variable {ε σ α β : Type} {x : EStateM ε σ α} {Q Q' : α → σ → Prop} {E E' : σ → Prop} {s : σ}

def Halts (Q : α → σ → Prop) (E : σ → Prop) : EStateM.Result ε σ α → Prop
  | .ok a t => Q a t
  | .error _ t => E t

/-- The run returns and passes a test. -/
def returns (test : α → σ → Bool) : EStateM.Result ε σ α → Bool
  | .ok a t => test a t
  | .error _ _ => false

@[simp] theorem halts_ok {a : α} : Halts Q E (.ok a s : EStateM.Result ε σ α) ↔ Q a s := Iff.rfl

@[simp] theorem halts_error {e : ε} : Halts Q E (.error e s : EStateM.Result ε σ α) ↔ E s := Iff.rfl

namespace Halts

theorem mono {r : EStateM.Result ε σ α} (h : Halts Q E r) (hQ : ∀ a t, Q a t → Q' a t)
    (hE : ∀ t, E t → E' t) : Halts Q' E' r := by
  cases r with
  | ok a t => exact hQ a t h
  | error e t => exact hE t h

/-- The last call of a program. -/
theorem post {r : EStateM.Result ε σ α} (h : Halts Q E r) (hQ : ∀ a t, Q a t → Q' a t) :
    Halts Q' E r :=
  h.mono hQ fun _ => id

/-- Two statements about one run. -/
theorem and {r : EStateM.Result ε σ α} (h : Halts Q E r) (h' : Halts Q' E' r) :
    Halts (fun a t => Q a t ∧ Q' a t) (fun t => E t ∧ E' t) r := by
  cases r with
  | ok a t => exact And.intro h h'
  | error e t => exact And.intro h h'

/-- A statement that depends on more than the run. -/
theorem of_imp {P : Prop} {r : EStateM.Result ε σ α} (h : P → Halts Q E r) :
    Halts (fun a t => P → Q a t) (fun t => P → E t) r := by
  cases r with
  | ok a t => exact h
  | error e t => exact h

theorem any (r : EStateM.Result ε σ α) : Halts (fun _ _ => True) (fun _ => True) r := by
  cases r <;> trivial

/-- What a run returns. -/
theorem of_ok {a : α} {t : σ} (h : Halts Q E (x s)) (hx : x s = .ok a t) : Q a t := by
  rw [hx] at h
  exact h

/-- A return that passes a test. -/
theorem of_returns {r : EStateM.Result ε σ α} (h : Halts Q E r) (test : α → σ → Bool)
    (hr : returns test r = true) : ∃ a t, r = .ok a t ∧ test a t = true ∧ Q a t := by
  cases r with
  | ok a t => exact ⟨a, t, rfl, hr, h⟩
  | error e t => cases hr

theorem bind {f : α → EStateM ε σ β} {R : β → σ → Prop} (h : Halts Q E (x s))
    (hf : ∀ a t, Q a t → Halts R E (f a t)) : Halts R E ((x >>= f) s) := by
  cases hx : x s with
  | ok a t =>
    rw [run_bind_ok hx]
    exact hf a t (h.of_ok hx)
  | error e t =>
    rw [run_bind_error hx]
    rw [hx] at h
    exact h

/-- A call of which nothing is needed. -/
theorem skip {f : α → EStateM ε σ β} {R : β → σ → Prop}
    (hf : ∀ a t, Halts R (fun _ => True) (f a t)) : Halts R (fun _ => True) ((x >>= f) s) :=
  bind (any (x s)) fun a t _ => hf a t

/-- A call of which the result is not used. -/
theorem void {P : σ → Prop} (h : Halts (fun _ => P) E (x s)) :
    Halts (fun _ => P) E ((do let _ ← x : EStateM ε σ PUnit) s) :=
  h.bind fun _ _ ht => ht

/-- Two statements about the first call, one of which says how it stops. -/
theorem bind_with {f : α → EStateM ε σ β} {R : β → σ → Prop} (h : Halts Q E (x s))
    (h' : Halts Q' E' (x s)) (hf : ∀ a t, Q a t → Q' a t → Halts R E' (f a t)) :
    Halts R E' ((x >>= f) s) :=
  bind ((h.and h').mono (fun _ _ => id) fun _ => And.right) fun a t hq => hf a t hq.1 hq.2

/-- A loop over a list keeps an invariant. -/
theorem forM {f : α → EStateM ε σ PUnit} {I : σ → Prop} (l : List α) (h0 : I s)
    (h : ∀ a t, I t → Halts (fun _ => I) E (f a t)) : Halts (fun _ => I) E (l.forM f s) := by
  induction l generalizing s with
  | nil => exact h0
  | cons a l ih => exact bind (h a s h0) fun _ t ht => ih ht

end Halts

end Xv6Container.Lib
