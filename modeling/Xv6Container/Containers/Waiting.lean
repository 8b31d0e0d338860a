import Xv6Container.Containers.Isolation

/-! How long a process waits for the scheduler. A RUNNABLE process that stays in a list gets one of the
next `PROCESS_COUNT` turns of its container; one of container 0 gets the next turn. -/

namespace Xv6Container.Containers

open Lib

variable {s t u : Sys} {a : Act} {n : Fin NCPU} {c : Fin NCONT} {p : Slot} {x : Fin PROCESS_COUNT} {k : ℤ}

/-- The process with pid `k` in slot `p` is RUNNABLE and in container `c`. -/
structure Ready (c : Fin NCONT) (p : Slot) (k : ℤ) (s : Sys) (_ : Act) : Prop where
  runnable : s.state p = .runnable
  containerID : s.containerID p = c.val
  pid : s.pid p = k

instance (c : Fin NCONT) (p : Slot) (k : ℤ) (s : Sys) (a : Act) : Decidable (Ready c p k s a) :=
  decidable_of_iff (s.state p = .runnable ∧ s.containerID p = c.val ∧ s.pid p = k)
    ⟨fun h => ⟨h.1, h.2.1, h.2.2⟩, fun h => ⟨h.runnable, h.containerID, h.pid⟩⟩

/-- It is also in entry `x` of the list of its container. -/
def Listed (c : Fin NCONT) (x : Fin PROCESS_COUNT) (p : Slot) (k : ℤ) (s : Sys) (a : Act) : Prop :=
  s.list c x = some p ∧ Ready c p k s a

instance (c : Fin NCONT) (x : Fin PROCESS_COUNT) (p : Slot) (k : ℤ) (s : Sys) (a : Act) :
    Decidable (Listed c x p k s a) :=
  inferInstanceAs (Decidable (s.list c x = some p ∧ Ready c p k s a))

/-! ### The scan -/

/-- The scan of a turn of `c` on CPU `n` has yet to come to slot `p`, and takes the pid `k`. -/
structure Before (n : Fin NCPU) (c : Fin NCONT) (p : Slot) (k : ℤ) (s : Sys) : Prop where
  cntNum : (s.cpu n).cntNum = c.val
  pid : c.val = 0 ∨ (s.cpu n).pid = k
  phase : ∃ next, (s.cpu n).phase = .scan next ∧ next ≤ p.val

/-- The scan does not pass a process that is ready. -/
theorem Before.step (h : Before n c p k s) (hr : Ready c p k s a) (ht : step s a = .ok t) :
    Before n c p k t ∨ t.state p = .running := by
  obtain ⟨next, hnext, hle⟩ := h.phase
  obtain ⟨rfl, hsched⟩ | ⟨o, ho⟩ := cpu_of_step ht n
  · have helig : eligible s.t (s.cpu n) p = true := by
      have hpid : s.pid p = (s.cpu n).pid ∨ (s.cpu n).cntNum = 0 := by
        rcases h.pid with hc | hpid
        · exact .inr (h.cntNum.trans hc)
        · exact .inl (hr.pid.trans hpid.symm)
      have hid : s.containerID p = (s.cpu n).cntNum := by
        rw [hr.containerID, h.cntNum]
      simp only [eligible, Bool.and_eq_true, Bool.or_eq_true, beq_iff_eq]
      exact ⟨⟨hpid, hid⟩, hr.runnable⟩
    unfold schedStep at hsched
    split_ifs at hsched
    rw [hnext] at hsched
    have hscan : scan s.t (s.cpu n) next = (t.t, t.cpu n) := Except.ok.inj hsched
    unfold scan at hscan
    split at hscan
    next hnone =>
      have := Fin.find?_eq_none_iff.mp hnone p
      rw [helig, decide_eq_true hle] at this
      cases this
    next q hq =>
      obtain ⟨htables, hcpu⟩ := Prod.mk.inj hscan
      by_cases hqp : q = p
      · right
        rw [Sys.state, ← htables, hqp]
        simp [Tables.setProc]
      · left
        have hlt : q.val < p.val := by
          by_contra hnot
          have hpq : p < q := lt_of_le_of_ne (not_lt.1 hnot) (fun heq => hqp heq.symm)
          have := (Fin.find?_eq_some_iff.mp hq).2 p hpq
          rw [helig, decide_eq_true hle] at this
          cases this
        refine ⟨?_, ?_, q + 1, ?_, hlt⟩
        · rw [← hcpu]
          exact h.cntNum
        · rw [← hcpu]
          exact h.pid
        · rw [← hcpu]
  · left
    refine ⟨?_, ?_, ?_⟩
    · rw [ho]
      exact h.cntNum
    · rw [ho]
      exact h.pid
    · rw [ho]
      exact h.phase

/-- A turn that takes the entry of a process, or any turn of container 0, comes to it. -/
theorem before_of_begins (hb : s.BeginsTurn n c a) (ht : step s a = .ok t)
    (hpid : c.val = 0 ∨ ∃ x, s.chosen n c = some x ∧ s.list c x = some p ∧ s.pid p = k) :
    Before n c p k t := by
  have hcpu := begins_turn hb ht
  have hcnt : (s.cpu n).cntNum = c.val := by
    unfold Sys.BeginsTurn at hb
    split at hb
    next => exact hb.2.2.1
    next => exact hb.elim
  have hphase : (t.cpu n).cntNum = c.val ∧ (t.cpu n).phase = .scan 0 := by
    rw [hcpu]
    cases s.chosen n c <;> exact ⟨hcnt, rfl⟩
  refine ⟨hphase.1, ?_, 0, hphase.2, Nat.zero_le _⟩
  rcases hpid with hzero | ⟨x, hx, hlist, hpid⟩
  · exact .inl hzero
  · right
    rw [hcpu, hx]
    dsimp only
    rw [hlist]
    exact hpid

/-- No turn of any container begins in the middle of a scan. -/
theorem Before.not_begins {d : Fin NCONT} (h : Before n c p k s) : ¬ s.BeginsTurn n d a := by
  obtain ⟨next, hnext, -⟩ := h.phase
  intro hb
  unfold Sys.BeginsTurn at hb
  split at hb
  next =>
    have := hnext.symm.trans hb.2.1
    cases this
  next => exact hb

/-! ### Turns -/

/-- The turn that comes to a process is the last one that begins before it runs. -/
def Comes (n : Fin NCPU) (c : Fin NCONT) (p : Slot) (k : ℤ) (P : Turn PROCESS_COUNT → Prop)
    (l : List (Turn PROCESS_COUNT)) (t : Sys) : Prop :=
  (∀ τ ∈ l, ¬ P τ) ∨ ∃ l' τ, l = l' ++ [τ] ∧ (∀ σ ∈ l', ¬ P σ) ∧
    (Before n c p k t ∨ t.state p = .running)

theorem Comes.step {P : Turn PROCESS_COUNT → Prop} {l : List (Turn PROCESS_COUNT)}
    (h : Comes n c p k P l s) (hr : Ready c p k s a) (ht : step s a = .ok t)
    (hP : ∀ τ, turnOf n c s a = some τ → P τ → Before n c p k t) :
    Comes n c p k P (l ++ (turnOf n c s a).toList) t := by
  have hnone (hb : ¬ s.BeginsTurn n c a) : turnOf n c s a = none := if_neg hb
  rcases h with h | ⟨l', τ, rfl, hl', hbefore | hrun⟩
  · by_cases hb : s.BeginsTurn n c a
    · obtain ⟨τ, hτ⟩ : ∃ τ, turnOf n c s a = some τ := ⟨_, if_pos hb⟩
      rw [hτ, Option.toList_some]
      by_cases hPτ : P τ
      · exact .inr ⟨l, τ, rfl, h, .inl (hP τ hτ hPτ)⟩
      · refine .inl fun σ hσ => ?_
        rcases List.mem_append.1 hσ with hσ | hσ
        · exact h σ hσ
        · rw [List.mem_singleton.1 hσ]
          exact hPτ
    · rw [hnone hb, Option.toList_none, List.append_nil]
      exact .inl h
  · rw [hnone hbefore.not_begins, Option.toList_none, List.append_nil]
    exact .inr ⟨l', τ, rfl, hl', hbefore.step hr ht⟩
  · have := hr.runnable.symm.trans hrun
    cases this

/-- While a process is RUNNABLE and in entry `x` of the list of its container, at most
`PROCESS_COUNT` turns of the container begin, on any CPU: in one of these it runs. -/
theorem waits_bounded {l : List (Turn PROCESS_COUNT)}
    (h : Trace step (Listed c x p k) (turnOf n c) s l t) : l.length ≤ PROCESS_COUNT := by
  have hrot := (rotates_of_trace (h.mono fun _ _ _ => trivial)).1
  have hocc : ∀ τ ∈ l, τ.occ x := by
    refine Trace.invariant (I := fun l _ => ∀ τ ∈ l, τ.occ x) (by rintro _ ⟨⟩) ?_ h
    rintro l t a u hl ⟨hlist, -⟩ -
    intro τ hτ
    rcases List.mem_append.1 hτ with hτ | hτ
    · exact hl τ hτ
    · unfold turnOf at hτ
      split_ifs at hτ
      · obtain rfl := List.mem_singleton.1 hτ
        show (t.list c x).isSome
        rw [hlist]
        rfl
      · cases hτ
  have hcomes : Comes n c p k (fun τ => τ.choice = some x) l t := by
    refine Trace.invariant (I := Comes n c p k fun τ => τ.choice = some x)
      (.inl (by rintro _ ⟨⟩)) ?_ h
    rintro l t a u hl ⟨hlist, hr⟩ hu
    refine hl.step hr hu fun τ hτ hx => ?_
    unfold turnOf at hτ
    split_ifs at hτ with hb
    cases hτ
    exact before_of_begins hb hu (.inr ⟨x, hx, hlist, hr.pid⟩)
  rcases hcomes with hnone | ⟨l', τ, rfl, hnone, -⟩
  · exact (hrot.length_le hocc hnone).trans (ahead_lt _ x).le
  · rw [rotates_append] at hrot
    rw [List.length_append, List.length_singleton]
    exact Nat.lt_of_le_of_lt
      (hrot.1.length_le (fun σ hσ => hocc σ (List.mem_append_left _ hσ)) hnone) (ahead_lt _ x)

/-- The process that has joined container 1 is still RUNNABLE after the turn has begun. -/
theorem waits_bounded_joined : ∃ l s t, Trace step (Listed 1 0 2 3) (turnOf 0 1) s l t ∧
    l.length = 1 ∧ l.length ≤ PROCESS_COUNT := by
  obtain ⟨s, -, htest⟩ := (Reach.start booted_firstBoot : Reach step always Booted firstBoot).of_endsIn
    (fun s => watch step (Listed 1 0 2 3) (turnOf 0 1) (fun l _ => decide (l.length = 1)) [] s [.sched 0])
    joinRun.dropLast.dropLast (by decide +kernel)
  obtain ⟨l, t, hl, hlength⟩ := Trace.nil.of_watch _ [Act.sched 0] htest
  exact ⟨l, s, t, hl, of_decide_eq_true hlength, waits_bounded hl⟩

/-- While a process of container 0 is RUNNABLE, at most one turn of container 0 begins. -/
theorem waits_bounded_zero {l : List (Turn PROCESS_COUNT)} (hc : c.val = 0)
    (h : Trace step (Ready c p k) (turnOf n c) s l t) : l.length ≤ 1 := by
  have hcomes : Comes n c p k (fun _ => True) l t := by
    refine Trace.invariant (I := Comes n c p k fun _ => True) (.inl (by rintro _ ⟨⟩)) ?_ h
    rintro l t a u hl hr hu
    refine hl.step hr hu fun τ hτ _ => ?_
    unfold turnOf at hτ
    split_ifs at hτ with hb
    exact before_of_begins hb hu (.inl hc)
  rcases hcomes with hnone | ⟨l', τ, rfl, hnone, -⟩
  · cases l with
    | nil => exact Nat.zero_le 1
    | cons τ l => exact absurd trivial (hnone τ List.mem_cons_self)
  · cases l' with
    | nil => exact le_refl 1
    | cons σ l' => exact absurd trivial (hnone σ List.mem_cons_self)

/-- The first process is RUNNABLE while CPU 1 begins a turn of container 0. -/
theorem waits_bounded_zero_first : ∃ l s t, Trace step (Ready 0 0 1) (turnOf 1 0) s l t ∧
    l.length = 1 ∧ l.length ≤ 1 := by
  obtain ⟨s, -, htest⟩ := (Reach.start booted_firstBoot : Reach step always Booted firstBoot).of_endsIn
    (fun s => watch step (Ready 0 0 1) (turnOf 1 0) (fun l _ => decide (l.length = 1)) [] s [.sched 1])
    joinRun.dropLast.dropLast (by decide +kernel)
  obtain ⟨l, t, hl, hlength⟩ := Trace.nil.of_watch _ [Act.sched 1] htest
  exact ⟨l, s, t, hl, of_decide_eq_true hlength, waits_bounded_zero rfl hl⟩

end Xv6Container.Containers
