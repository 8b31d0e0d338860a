import Mathlib.Data.Nat.Notation
import Mathlib.Tactic.Common

/-! Triples for programs that may stop in the middle. `Triple P x Q E` says that from a
state in `P` the program `x` either returns in `Q` or stops in a state in `E`. A program
that must not stop has the empty condition for `E`; a program that may lose power at any
point has there what holds of the state it leaves behind. -/

namespace Xv6Container.Lib

variable {ε σ α β : Type} {P P' : σ → Prop} {x : EStateM ε σ α} {Q Q' : α → σ → Prop}
  {E E' : σ → Prop}

def Triple (P : σ → Prop) (x : EStateM ε σ α) (Q : α → σ → Prop) (E : σ → Prop) : Prop :=
  ∀ s, P s → match x s with
    | .ok a t => Q a t
    | .error _ t => E t

section Run

variable (s : σ)

@[simp] theorem run_pure (a : α) : (pure a : EStateM ε σ α) s = .ok a s := rfl

@[simp] theorem run_throw (e : ε) : (throw e : EStateM ε σ α) s = .error e s := rfl

@[simp] theorem run_modify (g : σ → σ) : (modify g : EStateM ε σ PUnit) s = .ok ⟨⟩ (g s) := rfl

@[simp] theorem run_set (t : σ) : (set t : EStateM ε σ PUnit) s = .ok ⟨⟩ t := rfl

@[simp] theorem run_get_bind (f : σ → EStateM ε σ α) : (get >>= f) s = f s s := rfl

variable {s}

theorem run_bind_ok {f : α → EStateM ε σ β} {a : α} {t : σ} (h : x s = .ok a t) :
    (x >>= f) s = f a t := by
  change EStateM.bind x f s = f a t
  rw [EStateM.bind, h]

theorem run_bind_error {f : α → EStateM ε σ β} {e : ε} {t : σ} (h : x s = .error e t) :
    (x >>= f) s = .error e t := by
  change EStateM.bind x f s = .error e t
  rw [EStateM.bind, h]

/-- A sequence that returns has returned in the middle. -/
theorem bind_eq_ok {f : α → EStateM ε σ β} {b : β} {t : σ} (h : (x >>= f) s = .ok b t) :
    ∃ a u, x s = .ok a u ∧ f a u = .ok b t := by
  cases hx : x s with
  | ok a u =>
    rw [run_bind_ok hx] at h
    exact ⟨a, u, rfl, h⟩
  | error e u =>
    rw [run_bind_error hx] at h
    cases h

end Run

namespace Triple

theorem weaken (h : Triple P x Q E) (hP : ∀ s, P' s → P s) (hQ : ∀ a s, Q a s → Q' a s)
    (hE : ∀ s, E s → E' s) : Triple P' x Q' E' := by
  intro s hs
  have := h s (hP s hs)
  revert this
  cases x s with
  | ok a t => exact hQ a t
  | error e t => exact hE t

/-- What the first state says besides `P` may be used in the proof. -/
theorem use (h : ∀ s, P s → Triple P x Q E) : Triple P x Q E := fun s hs => h s hs s hs

/-- The last program of a sequence. -/
theorem last (h : Triple P x Q E) (hE : ∀ s, E s → E' s) (hQ : ∀ a s, Q a s → Q' a s) :
    Triple P x Q' E' :=
  h.weaken (fun _ => id) hQ hE

theorem of_false (h : ∀ s, ¬ P s) : Triple P x Q E := fun s hs => absurd hs (h s)

theorem ret {a : α} (h : ∀ s, P s → Q a s) : Triple (ε := ε) P (pure a) Q E :=
  fun s hs => h s hs

theorem bind {f : α → EStateM ε σ β} {R : β → σ → Prop} (hx : Triple P x Q E)
    (hf : ∀ a, Triple (Q a) (f a) R E) : Triple P (x >>= f) R E := by
  intro s hs
  have h := hx s hs
  change match EStateM.bind x f s with
    | .ok a t => R a t
    | .error _ t => E t
  unfold EStateM.bind
  revert h
  cases x s with
  | ok a t => exact fun h => hf a t h
  | error e t => exact fun h => h

/-- As `bind`, for a first program with a stop condition of its own. -/
theorem seq {f : α → EStateM ε σ β} {R : β → σ → Prop} (hx : Triple P x Q E)
    (hE : ∀ s, E s → E' s) (hf : ∀ a, Triple (Q a) (f a) R E') : Triple P (x >>= f) R E' :=
  bind (hx.last hE fun _ _ => id) hf

/-- A read of the state gives a state in which `P` holds. -/
theorem get_bind {f : σ → EStateM ε σ β} {R : β → σ → Prop}
    (h : ∀ s, P s → Triple P (f s) R E) : Triple P (get >>= f) R E :=
  fun s hs => h s hs s hs

/-- A pure part of the condition. -/
theorem assume {p : Prop} (h : p → Triple P x Q E) : Triple (fun s => p ∧ P s) x Q E :=
  fun s hs => h hs.1 s hs.2

theorem exists_pre {γ : Type*} {P : γ → σ → Prop} (h : ∀ c, Triple (P c) x Q E) :
    Triple (fun s => ∃ c, P c s) x Q E := by
  rintro s ⟨c, hs⟩
  exact h c s hs

/-- A loop over `m`, `m + 1`, … keeps an invariant that names the next index. -/
theorem range' {f : ℕ → EStateM ε σ PUnit} {I : ℕ → σ → Prop} (m n : ℕ)
    (h : ∀ i, m ≤ i → i < m + n → Triple (I i) (f i) (fun _ => I (i + 1)) E) :
    Triple (I m) ((List.range' m n).forM f) (fun _ => I (m + n)) E := by
  induction n generalizing m with
  | zero => exact ret fun s hs => hs
  | succ n ih =>
    refine bind (h m (Nat.le_refl m) (by omega)) fun _ => ?_
    have := ih (m + 1) fun i hi hi' => h i (by omega) (by omega)
    rwa [show m + 1 + n = m + (n + 1) by omega] at this

theorem range {f : ℕ → EStateM ε σ PUnit} {I : ℕ → σ → Prop} (n : ℕ)
    (h : ∀ i, i < n → Triple (I i) (f i) (fun _ => I (i + 1)) E) :
    Triple (I 0) ((List.range n).forM f) (fun _ => I n) E := by
  have := range' (f := f) (I := I) (E := E) 0 n fun i _ hi => h i (by omega)
  rwa [← List.range_eq_range', Nat.zero_add] at this

end Triple

/-- What a loop keeps, if it returns. -/
theorem forM_eq_ok {f : ℕ → EStateM ε σ PUnit} {I : ℕ → σ → Prop} {n : ℕ} {s t : σ}
    (h : (List.range n).forM f s = .ok ⟨⟩ t) (h0 : I 0 s)
    (hstep : ∀ i u v, i < n → I i u → f i u = .ok ⟨⟩ v → I (i + 1) v) : I n t := by
  have hloop : Triple (I 0) ((List.range n).forM f) (fun _ => I n) fun _ => True := by
    apply Triple.range
    intro i hi u hu
    cases hf : f i u with
    | ok _ v => exact hstep i u v hi hu hf
    | error _ _ => trivial
  have hend := hloop s h0
  rwa [h] at hend

end Xv6Container.Lib
