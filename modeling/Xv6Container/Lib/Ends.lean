import Mathlib.Data.List.OfFn
import Xv6Container.Lib.Triple

/-! How a program ends from one given state: `Ends Q S r` says of the result `r` of a run
that it is a return in `Q` or a stop for a reason in `S`. What is known of the first state
stays in the context of the proof, and a call is passed by the statement about it. -/

namespace Xv6Container.Lib

variable {ε σ α β : Type} {x : EStateM ε σ α} {Q Q' : α → σ → Prop} {S S' : ε → Prop} {s : σ}

def Ends (Q : α → σ → Prop) (S : ε → Prop) (r : EStateM.Result ε σ α) : Prop :=
  (∀ a t, r = .ok a t → Q a t) ∧ ∀ e t, r = .error e t → S e

@[simp] theorem ends_ok {a : α} : Ends Q S (.ok a s) ↔ Q a s := by
  constructor
  · intro h
    exact h.1 a s rfl
  · intro h
    refine ⟨fun a' t' h' => ?_, nofun⟩
    cases h'
    exact h

@[simp] theorem ends_error {e : ε} : Ends Q S (.error e s : EStateM.Result ε σ α) ↔ S e := by
  constructor
  · intro h
    exact h.2 e s rfl
  · intro h
    refine ⟨nofun, fun e' t' h' => ?_⟩
    cases h'
    exact h

@[simp] theorem run_modify_bind (g : σ → σ) (f : PUnit → EStateM ε σ α) :
    (modify g >>= f) s = f ⟨⟩ (g s) := rfl

@[simp] theorem run_pure_bind (a : α) (f : α → EStateM ε σ β) : (pure a >>= f) s = f a s := rfl

@[simp] theorem run_throw_bind (e : ε) (f : α → EStateM ε σ β) :
    ((throw e : EStateM ε σ α) >>= f) s = .error e s := rfl

namespace Ends

theorem mono {r : EStateM.Result ε σ α} (h : Ends Q S r) (hQ : ∀ a t, Q a t → Q' a t)
    (hS : ∀ e, S e → S' e) : Ends Q' S' r :=
  ⟨fun a t hr => hQ a t (h.1 a t hr), fun e t hr => hS e (h.2 e t hr)⟩

/-- A run that does not stop returns. -/
theorem returns {r : EStateM.Result ε σ α} (h : Ends Q (fun _ => False) r) :
    ∃ a t, r = .ok a t ∧ Q a t := by
  cases r with
  | ok a t => exact ⟨a, t, rfl, h.1 a t rfl⟩
  | error e t => exact (h.2 e t rfl).elim

/-- Nothing is said. -/
theorem any (r : EStateM.Result ε σ α) : Ends (fun _ _ => True) (fun _ => True) r :=
  ⟨fun _ _ _ => trivial, fun _ _ _ => trivial⟩

/-- The last call of a program. -/
theorem post {r : EStateM.Result ε σ α} (h : Ends Q S r) (hQ : ∀ a t, Q a t → Q' a t) :
    Ends Q' S r :=
  h.mono hQ fun _ => id

/-- Two statements about one run. -/
theorem and {r : EStateM.Result ε σ α} (h : Ends Q S r) (h' : Ends Q' S' r) :
    Ends (fun a t => Q a t ∧ Q' a t) (fun e => S e ∧ S' e) r :=
  ⟨fun a t hr => ⟨h.1 a t hr, h'.1 a t hr⟩, fun e t hr => ⟨h.2 e t hr, h'.2 e t hr⟩⟩

theorem bind {f : α → EStateM ε σ β} {R : β → σ → Prop} (h : Ends Q S (x s))
    (hf : ∀ a t, Q a t → Ends R S (f a t)) : Ends R S ((x >>= f) s) := by
  cases hx : x s with
  | ok a t =>
    rw [run_bind_ok hx]
    exact hf a t (h.1 a t hx)
  | error e t =>
    rw [run_bind_error hx, ends_error]
    exact h.2 e t hx

/-- Two statements about the first call, one of which says how it stops. -/
theorem bind_with {f : α → EStateM ε σ β} {R : β → σ → Prop} (h : Ends Q S (x s))
    (h' : Ends Q' S' (x s)) (hf : ∀ a t, Q a t → Q' a t → Ends R S' (f a t)) :
    Ends R S' ((x >>= f) s) :=
  bind ((h.and h').mono (fun _ _ => id) fun _ => And.right) fun a t hq => hf a t hq.1 hq.2

/-- The result is not used. -/
theorem discard (h : Ends Q S (x s)) :
    Ends (fun _ t => ∃ a, Q a t) S ((Functor.discard x : EStateM ε σ PUnit) s) := by
  change Ends _ S (EStateM.map _ x s)
  unfold EStateM.map
  cases hx : x s with
  | ok a t => exact ends_ok.2 ⟨a, h.1 a t hx⟩
  | error e t => exact ends_error.2 (h.2 e t hx)

/-- What is said of a function of the result. -/
theorem of_map {f : α → β} {Q : β → σ → Prop} (h : Ends Q S ((f <$> x) s)) :
    Ends (fun a t => Q (f a) t) S (x s) := by
  change Ends Q S (EStateM.map f x s) at h
  unfold EStateM.map at h
  cases hx : x s with
  | ok a t =>
    rw [hx] at h
    exact ends_ok.2 (ends_ok.1 h)
  | error e t =>
    rw [hx] at h
    exact ends_error.2 (ends_error.1 h)

/-- A loop over a list keeps an invariant that names the number of passes made. -/
theorem forM {f : α → EStateM ε σ PUnit} {I : ℕ → σ → Prop} (l : List α) (h0 : I 0 s)
    (h : ∀ i (hi : i < l.length) t, I i t → Ends (fun _ => I (i + 1)) S (f l[i] t)) :
    Ends (fun _ => I l.length) S (l.forM f s) := by
  induction l generalizing I s with
  | nil => exact ends_ok.2 h0
  | cons a l ih =>
    change Ends _ _ ((f a >>= fun _ => l.forM f) s)
    refine bind (h 0 (by simp) s h0) fun _ t ht => ?_
    have := ih (I := fun i => I (i + 1)) ht fun i hi t ht => h (i + 1) (by simpa using hi) t ht
    simpa using this

/-- A loop over the indices of an array. -/
theorem finRange {n : ℕ} {f : Fin n → EStateM ε σ PUnit} {I : ℕ → σ → Prop} (h0 : I 0 s)
    (h : ∀ (i : Fin n) t, I i t → Ends (fun _ => I (i + 1)) S (f i t)) :
    Ends (fun _ => I n) S ((List.finRange n).forM f s) := by
  have := forM (S := S) (f := f) (List.finRange n) h0 fun i hi t ht => by
    have hi' : i < n := by simpa using hi
    rw [List.getElem_finRange]
    exact h ⟨i, hi'⟩ t ht
  rwa [List.length_finRange] at this

end Ends

end Xv6Container.Lib
