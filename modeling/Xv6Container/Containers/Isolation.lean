import Xv6Container.Containers.Turns

/-! One turn of the scheduler runs one process at most, and only one of its container. The pid
that the selection loop found names one process while it is in use, and nobody gets it again;
the scan tests the container as well, so a pid left over from the turn of another container
finds nothing. -/

namespace Xv6Container.Containers

open Lib

variable {s t u v : Sys} {a : Act} {n : Fin NCPU} {c : Fin NCONT} {p : Slot}

/-- CPU `n` is in the scan of a turn. -/
def InTurn (n : Fin NCPU) (s : Sys) (_ : Act) : Prop := ∃ k, (s.cpu n).phase = .scan k

instance (n : Fin NCPU) (s : Sys) (a : Act) : Decidable (InTurn n s a) :=
  match h : (s.cpu n).phase with
  | .scan k => .isTrue ⟨k, h⟩
  | .pick | .check | .round => .isFalse fun ⟨_, hk⟩ => nomatch h.symm.trans hk

/-- A turn of container `c` that begins in this state switches to one process at most, a
RUNNABLE one of `c`, which has the pid found in the chosen entry. -/
structure Isolated (s : Sys) (n : Fin NCPU) (c : Fin NCONT) (t u : Sys) (p : Slot) (v : Sys) :
    Prop where
  runnable : u.state p = .runnable
  containerID : u.containerID p = c.val
  pid : ∀ i, s.chosen n c = some i → ∃ q, s.list c i = some q ∧ u.pid p = s.pid q
  once : ∀ w x, Reach step (InTurn n) (· = v) w → step w (.sched n) = .ok x → (x.cpu n).proc = none

/-! ### The scan -/

theorem scan_cpu {x y : Tables} {w w' : Cpu} {next : ℕ} (h : scan x w next = (y, w')) :
    w'.pid = w.pid ∧ w'.cntNum = w.cntNum ∧ (w'.proc = w.proc ∧ w'.phase = .check ∨
      ∃ q : Slot, next ≤ q.val ∧ eligible x w q = true ∧ w'.proc = some q ∧
        w'.phase = .scan (q + 1)) := by
  unfold scan at h
  split at h
  next =>
    obtain ⟨-, rfl⟩ := Prod.mk.inj h
    exact ⟨rfl, rfl, .inl ⟨rfl, rfl⟩⟩
  next q hq =>
    obtain ⟨-, rfl⟩ := Prod.mk.inj h
    have hfound := (Fin.find?_eq_some_iff.mp hq).1
    simp only [Bool.and_eq_true, decide_eq_true_eq] at hfound
    exact ⟨rfl, rfl, .inr ⟨q, hfound.1, hfound.2, rfl, rfl⟩⟩

/-- The scan of a turn goes on or ends. -/
structure Scanning (s : Sys) (n : Fin NCPU) (k : ℤ) (c : Fin NCONT) : Prop where
  pid : (s.cpu n).pid = k
  cntNum : (s.cpu n).cntNum = c.val
  phase : (∃ next, (s.cpu n).phase = .scan next) ∨ (s.cpu n).phase = .check

theorem Scanning.step {k : ℤ} (h : Scanning s n k c) (hg : InTurn n s a)
    (ht : Containers.step s a = .ok t) : Scanning t n k c := by
  obtain ⟨rfl, hsched⟩ | ⟨o, ho⟩ := cpu_of_step ht n
  · obtain ⟨next, hnext⟩ := hg
    unfold schedStep at hsched
    split_ifs at hsched
    rw [hnext] at hsched
    obtain ⟨hpid, hcnt, ⟨-, hphase⟩ | ⟨q, -, -, -, hphase⟩⟩ := scan_cpu (Except.ok.inj hsched)
    · exact ⟨hpid.trans h.pid, hcnt.trans h.cntNum, .inr hphase⟩
    · exact ⟨hpid.trans h.pid, hcnt.trans h.cntNum, .inl ⟨_, hphase⟩⟩
  · refine ⟨?_, ?_, ?_⟩
    · rw [ho]
      exact h.pid
    · rw [ho]
      exact h.cntNum
    · rw [ho]
      exact h.phase

/-- A switch in the course of a turn. -/
theorem Scanning.switch {k : ℤ} (h : Scanning s n k c) (ht : Containers.step s (.sched n) = .ok t)
    (hp : (t.cpu n).proc = some p) : eligible s.t (s.cpu n) p = true ∧
      (t.cpu n).phase = .scan (p + 1) ∧ ∃ next, (s.cpu n).phase = .scan next ∧ next ≤ p.val := by
  have hsched := sched_step ht
  unfold schedStep at hsched
  split_ifs at hsched with hidle
  obtain ⟨next, hnext⟩ | hcheck := h.phase
  · rw [hnext] at hsched
    obtain ⟨-, -, ⟨hproc, -⟩ | ⟨q, hle, hq, hproc, hphase⟩⟩ := scan_cpu (Except.ok.inj hsched)
    · rw [hproc] at hp
      rw [hp] at hidle
      exact absurd rfl hidle
    · rw [hproc] at hp
      obtain rfl := Option.some.inj hp
      exact ⟨hq, hphase, next, hnext, hle⟩
  · rw [hcheck] at hsched
    have hproc := check_proc hsched
    rw [hproc] at hp
    rw [hp] at hidle
    exact absurd rfl hidle

/-! ### The rest of a turn -/

/-- How the pids change in a step. -/
theorem pid_of_step (he : Effect s a t) : s.t.nextpid ≤ t.t.nextpid ∧
    ∀ q, t.pid q = s.pid q ∨ t.pid q = s.t.nextpid ∧ s.t.nextpid < t.t.nextpid ∨ t.pid q = 0 := by
  have hsame : t.pid = s.pid → t.t.nextpid = s.t.nextpid → s.t.nextpid ≤ t.t.nextpid ∧
      ∀ q, t.pid q = s.pid q ∨ t.pid q = s.t.nextpid ∧ s.t.nextpid < t.t.nextpid ∨
        t.pid q = 0 := by
    intro hpid hnext
    exact ⟨hnext.ge, fun q => .inl (congrFun hpid q)⟩
  cases he with
  | quiet names _ _ | leave _ names _ _ _ _ _ | release _ _ names _ _ _
  | enterUnlisted _ _ names _ _ _ _ | publish _ _ _ names _ _ _ | exit _ names _ _ _ _ _ _ =>
    exact hsame names.pid names.nextpid
  | enter _ _ _ _ _ _ hpid hnext _ _ _ _ _ _ => exact hsame hpid hnext
  | name _ _ _ _ hpid hnext _ _ _ _ => exact hsame hpid hnext
  | delist _ _ _ hpid hnext _ _ _ _ _ => exact hsame hpid hnext
  | alloc p np _ _ _ _ _ hpid hnext _ _ =>
    refine ⟨by omega, fun q => ?_⟩
    rw [hpid, Function.update_apply]
    split_ifs
    · exact .inr (.inl ⟨rfl, by omega⟩)
    · exact .inl rfl
  | reap p x _ _ hnext _ _ _ _ hpid _ _ =>
    refine ⟨hnext.ge, fun q => ?_⟩
    rw [hpid, Function.update_apply]
    split_ifs
    · exact .inr (.inr rfl)
    · exact .inl rfl

/-- The scan has switched to `p`: the pid of the turn names nobody else, and the scan has
passed `p`. -/
structure Passed (s : Sys) (n : Fin NCPU) (c : Fin NCONT) (p : Slot) : Prop where
  scanning : Scanning s n (s.cpu n).pid c
  named : (s.cpu n).pid ≠ 0 ∧ (s.cpu n).pid < s.t.nextpid ∧
    ∀ q, s.pid q = (s.cpu n).pid → q = p
  passed : ∀ next, (s.cpu n).phase = .scan next → p.val < next

theorem Passed.step (h : Passed s n c p) (hg : InTurn n s a) (ht : Containers.step s a = .ok t) :
    Passed t n c p := by
  have hscan := h.scanning.step hg ht
  obtain ⟨hnext, hpids⟩ := pid_of_step (step_effect ht)
  obtain ⟨h0, hlt, hne⟩ := h.named
  refine ⟨by rw [hscan.pid]; exact hscan, ⟨by rw [hscan.pid]; exact h0, by rw [hscan.pid]; omega,
    fun q hq => ?_⟩, fun next hphase => ?_⟩
  · rw [hscan.pid] at hq
    obtain hsame | ⟨hnew, -⟩ | hzero := hpids q
    · exact hne q (hsame.symm.trans hq)
    · omega
    · exact absurd (hq.symm.trans hzero) h0
  · obtain ⟨rfl, hsched⟩ | ⟨o, ho⟩ := cpu_of_step ht n
    · obtain ⟨k, hk⟩ := hg
      unfold schedStep at hsched
      split_ifs at hsched
      rw [hk] at hsched
      obtain ⟨-, -, ⟨-, hcheck⟩ | ⟨q, hle, -, -, hq⟩⟩ := scan_cpu (Except.ok.inj hsched)
      · rw [hcheck] at hphase
        cases hphase
      · rw [hq] at hphase
        cases hphase
        have := h.passed k hk
        omega
    · rw [ho] at hphase
      exact h.passed next hphase

/-- Nobody else is switched to. -/
theorem Passed.last (h : Passed s n c p) (hc : 1 ≤ c.val)
    (ht : Containers.step s (.sched n) = .ok t) : (t.cpu n).proc = none := by
  cases hq : (t.cpu n).proc with
  | none => rfl
  | some q =>
    obtain ⟨helig, -, next, hnext, hle⟩ := h.scanning.switch ht hq
    simp only [eligible, Bool.and_eq_true, Bool.or_eq_true, beq_iff_eq, h.scanning.cntNum] at helig
    have hpid : s.pid q = (s.cpu n).pid := by
      obtain ⟨⟨hpid | hzero, -⟩, -⟩ := helig
      · exact hpid
      · omega
    have hpassed := h.passed next hnext
    rw [h.named.2.2 q hpid] at hle
    omega

/-- Every turn of a container from 1 on is isolated. -/
theorem turns_isolated (hs : Reach step always Booted s) (hc : 1 ≤ c.val)
    (hb : s.BeginsTurn n c (.sched n)) (ht : step s (.sched n) = .ok t)
    (hu : Reach step (InTurn n) (· = t) u) (hv : step u (.sched n) = .ok v)
    (hp : (v.cpu n).proc = some p) : Isolated s n c t u p v := by
  have hreach : Reach step always Booted u := by
    have hwiden : ∀ w, Reach step (InTurn n) (· = t) w → Reach step always Booted w := by
      intro w hw
      induction hw with
      | start h =>
        subst h
        exact .next hs trivial ht
      | next _ _ hstep ih => exact .next ih trivial hstep
    exact hwiden u hu
  have hpids : ∀ w, Reach step always Booted w → Pids w := by
    intro w hw
    exact (hw.invariant (I := fun s => Holders s ∧ Pids s) (fun _ hb => ⟨hb.holders, hb.pids⟩)
      fun _ _ _ h _ ht => ⟨h.1.step (step_effect ht), h.2.step h.1 (step_effect ht)⟩).2
  have hbegin := begins_turn hb ht
  -- the turn has begun
  obtain ⟨k, hk⟩ : ∃ k, (t.cpu n).pid = k := ⟨_, rfl⟩
  have hstart : Scanning t n k c := by
    refine ⟨hk, ?_, ?_⟩
    · rw [hbegin]
      cases s.chosen n c <;> exact hb.2.2.1
    · rw [hbegin]
      cases s.chosen n c <;> exact .inl ⟨0, rfl⟩
  have hscan : Scanning u n k c := by
    refine hu.invariant ?_ fun _ _ _ h hg hstep => Scanning.step h hg hstep
    rintro _ rfl
    exact hstart
  obtain ⟨helig, hphase, next, hnext, hle⟩ := hscan.switch hv hp
  have helig' := helig
  simp only [eligible, Bool.and_eq_true, Bool.or_eq_true, beq_iff_eq, hscan.cntNum] at helig'
  have hpid : u.pid p = k := by
    obtain ⟨⟨hpid | hzero, -⟩, -⟩ := helig'
    · rw [← hscan.pid]
      exact hpid
    · omega
  obtain ⟨⟨-, hid⟩, hstate⟩ := helig'
  refine ⟨hstate, hid, fun i hi => ?_, fun w x hw hx => ?_⟩
  · have hsome := (select_some hi).1
    obtain ⟨q, hq⟩ := Option.isSome_iff_exists.1 hsome
    refine ⟨q, hq, ?_⟩
    rw [hi] at hbegin
    have hfound : (t.cpu n).pid = s.t.entryPid 0 (s.list c i) := by rw [hbegin]
    rw [hpid, ← hk, hfound, hq]
    rfl
  · have hscanv := hscan.step ⟨next, hnext⟩ hv
    have hpidv : ∀ q, v.pid q = u.pid q := by
      intro q
      have hcalm := Calm.schedStep (sched_step hv)
      exact hcalm.pid q
    have hticket := (hpids u hreach).tickets
    have hlt := hticket.range p
    have h0 : u.pid p ≠ 0 := by
      refine (hpids u hreach).inUse p ?_
      rw [Sys.state, hstate]
      rintro ⟨⟩
    have hnextpid : v.t.nextpid = u.t.nextpid := (Calm.schedStep (sched_step hv)).nextpid
    have hpassed : Passed v n c p := by
      refine ⟨by rw [hscanv.pid]; exact hscanv, ⟨?_, ?_, fun q hq => ?_⟩, fun k hk => ?_⟩
      · rw [hscanv.pid, ← hpid]
        exact h0
      · rw [hscanv.pid, ← hpid, hnextpid]
        exact hlt.2
      · rw [hscanv.pid, ← hpid, hpidv] at hq
        exact hticket.unique q p (by rw [hq]; exact h0) hq
      · rw [hphase] at hk
        cases hk
        exact Nat.lt_succ_self p.val
    have hw' : Passed w n c p := by
      refine hw.invariant ?_ fun _ _ _ h hg hstep => Passed.step h hg hstep
      rintro _ rfl
      exact hpassed
    exact hw'.last hc hx

/-- The process that joined container 1 is switched to in the turn of its container. -/
theorem turns_isolated_joined : ∃ s t v, (v.cpu 0).proc = some 2 ∧ Isolated s 0 1 t t 2 v := by
  have hboot : Reach step always Booted firstBoot := .start booted_firstBoot
  obtain ⟨s, hs, htest⟩ := hboot.of_endsIn
    (fun s => decide (s.BeginsTurn 0 1 (.sched 0)) && match step s (.sched 0) with
      | .ok t => match step t (.sched 0) with
        | .ok v => decide ((v.cpu 0).proc = some 2)
        | .error _ => false
      | .error _ => false) joinRun.dropLast.dropLast (by decide +kernel)
  simp only [Bool.and_eq_true, decide_eq_true_eq] at htest
  obtain ⟨hb, htest⟩ := htest
  split at htest
  next t ht =>
    split at htest
    next v hv =>
      have hp := of_decide_eq_true htest
      exact ⟨s, t, v, hp, turns_isolated hs (by decide) hb ht (.start rfl) hv hp⟩
    next => cases htest
  next => cases htest

end Xv6Container.Containers
