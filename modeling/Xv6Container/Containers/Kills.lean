import Xv6Container.Containers.Slots
import Xv6Container.Containers.Listing

/-! Kills and slots that are not in use. `kill` looks for its pid in every slot, in use or not:
`kill(0)` finds a slot that was never used, and a pid that a failed `fork` left behind is found
there. `allocproc` does not clear `killed`, so the next process in that slot starts out
killed. -/

namespace Xv6Container.Containers

open Lib

variable {s t : Sys} {a : Act} {p np : Slot} {k : Creator} {e : Env}

/-- The list of a container is full. -/
def Tables.Full (t : Tables) (containerID : ℤ) : Prop :=
  ∃ c : Fin NCONT, containerID = c.val ∧ ∀ i, ((t.container c).process i).isSome

/-- `fork` lists its child outside container 0 only. -/
def Creator.Full (t : Tables) (cur : Slot) : Creator → Prop
  | .fork => (t.proc cur).containerID ≠ 0 ∧ t.Full (t.proc cur).containerID
  | .join c _ => t.Full c

/-- The next section of `p` finds no kernel stack, no memory or no list entry for the process
in slot `np`. -/
def Sys.GivesUp (s : Sys) (p : Slot) (e : Env) (np : Slot) : Prop :=
  match s.pc p with
  | .kstack _ x => x = np ∧ if s.t.allocFor = 0 then e.page = none else s.t.Exhausted s.t.allocFor
  | .copy _ x => x = np ∧ e.copied = false
  | .list k x => x = np ∧ k.Full s.t p
  | _ => False

/-- No kill names the pid of a slot that is UNUSED, and no process that has been killed is
given up before it is complete. -/
def KillsInUse (s : Sys) : Act → Prop
  | .call _ (.kill pid) => ∀ q, s.pid q = pid → s.state q ≠ .unused
  | .step p e => ∀ np, s.GivesUp p e np → (s.core np).killed = false
  | _ => True

/-- A slot that `allocproc` hands out is not killed. A kill that says 0 has found a slot in
use, and no kill writes to any other. -/
structure KillsOk (s : Sys) (a : Act) (t : Sys) : Prop where
  handed : ∀ p e k np, a = .step p e → s.pc p = .alloc k → t.pc p = .kstack k np →
    (t.core np).killed = false
  found : ∀ p pid, a = .call p (.kill pid) →
    (t.ret p = 0 → ∃ q, s.pid q = pid ∧ s.state q ≠ .unused) ∧
      ∀ q, s.state q = .unused → t.t.proc q = s.t.proc q

/-! ### Slots that are given back -/

theorem insert_full {b : Bool} {x : Tables} (h : k.insert s.t p np = .ok (b, x)) (hb : b = false) :
    k.Full s.t p := by
  have hinsert : ∀ c, s.t.insertProcess c np = .ok (b, x) → s.t.Full c := by
    intro c hc
    unfold Tables.insertProcess at hc
    split at hc
    · cases hc
    next d hd =>
      split at hc
      next hnone =>
        refine ⟨d, index_eq_ok.mp hd, fun i => ?_⟩
        have := Fin.find?_eq_none_iff.mp hnone i
        simpa using this
      next =>
        cases hc
        cases hb
  cases k with
  | join c pp => exact hinsert c h
  | fork =>
    simp only [Creator.insert, Tables.forkInsert] at h
    split_ifs at h with hc
    · exact ⟨hc, hinsert _ h⟩
    · cases h
      cases hb

/-- A process lets go of a slot without completing its process. -/
theorem gives_up (ht : step s (.step p e) = .ok t) (hfresh : s.stage p = .fresh np)
    (hidle : t.stage p = .idle) : s.GivesUp p e np := by
  simp only [step] at ht
  split_ifs at ht with hrun
  unfold Sys.GivesUp
  unfold Sys.stage at hfresh
  cases hpc : s.pc p with
  | kstack k x =>
    rw [hpc] at hfresh
    cases hfresh
    refine ⟨rfl, ?_⟩
    simp only [sectionStep, hpc] at ht
    split at ht
    · cases ht
    next x hx =>
      obtain ⟨-, ⟨h0, hnone, -⟩ | ⟨h0, c, i, hc, hi, hnone, -⟩⟩ := Tables.allocKstack_ok hx
      · rw [if_pos h0]
        simpa using hnone.symm
      · rw [if_neg h0]
        exact ⟨c, i, hc, hi, by simpa using hnone.symm⟩
    next x hx =>
      split at ht
      all_goals
        cases ht
        simp only [Sys.stage, Sys.goto, Function.update_self] at hidle
        cases hidle
  | copy k x =>
    rw [hpc] at hfresh
    cases hfresh
    refine ⟨rfl, ?_⟩
    simp only [sectionStep, hpc] at ht
    split_ifs at ht with hcopied
    · cases ht
      simp only [Sys.stage, Sys.goto, Function.update_self] at hidle
      cases hidle
    · simpa using hcopied
  | list k x =>
    rw [hpc] at hfresh
    cases hfresh
    refine ⟨rfl, ?_⟩
    simp only [sectionStep, hpc] at ht
    split at ht
    · cases ht
    next x hx => exact insert_full hx rfl
    next x hx =>
      cases ht
      simp only [Sys.stage, Sys.goto, Function.update_self] at hidle
      cases hidle
  | resetAlloc k x =>
    simp only [sectionStep, hpc] at ht
    cases ht
    simp only [Sys.stage, Sys.goto, Function.update_self] at hidle
    cases hidle
  | exiting b =>
    rw [hpc] at hfresh
    cases b <;> cases hfresh
  | _ =>
    rw [hpc] at hfresh
    cases hfresh

/-! ### The run -/

/-- The slots that are not in use have not been killed. -/
def Unkilled (s : Sys) : Prop := ∀ q, s.state q = .unused → (s.core q).killed = false

/-- Only `kill` sets `killed`. -/
theorem killed_of_step {q : Slot} (ht : step s a = .ok t) (hq : (t.core q).killed = true) :
    (s.core q).killed = true ∨ ∃ p pid, a = .call p (.kill pid) ∧ s.pid q = pid := by
  have hupdate : ∀ (x : Slot) (v : Core), t.core = Function.update s.core x v →
      v.killed = (s.core x).killed ∨ v.killed = false → (s.core q).killed = true := by
    intro x v hcore hv
    rw [hcore, Function.update_apply] at hq
    split_ifs at hq with hx
    · rw [hx]
      obtain hv | hv := hv
      · rw [← hv, hq]
      · rw [hv] at hq
        cases hq
    · exact hq
  cases step_move ht with
  | same hcore _ =>
    rw [hcore] at hq
    exact .inl hq
  | kill p x pid hact hfound hcore _ =>
    by_cases hx : q = x
    · subst hx
      have hpid := (Fin.find?_eq_some_iff.mp hfound).1
      exact .inr ⟨p, pid, hact, beq_iff_eq.mp hpid⟩
    · rw [hcore, Function.update_of_ne hx] at hq
      exact .inl hq
  | sleep p chan _ _ hcore _ => exact .inl (hupdate p _ hcore (.inl rfl))
  | kstack p np k e page _ _ hcore _ _ => exact .inl (hupdate np _ hcore (.inl rfl))
  | abandon p np k e _ _ _ hcore _ _ => exact .inl (hupdate np _ hcore (.inl rfl))
  | fields p np k e _ _ hcore _ => exact .inl (hupdate np _ hcore (.inl rfl))
  | exit p e b _ _ hcore _ =>
    rw [hcore q] at hq
    split_ifs at hq
    · exact .inl hq
    · exact .inl hq
  | reap p x e _ _ _ hcore _ => exact .inl (hupdate x _ hcore (.inr rfl))
  | reserve p e c _ _ _ hcore _ =>
    rw [hcore] at hq
    exact .inl hq

/-- How a slot goes out of use: its process is given up, or reaped. -/
theorem out_of_use {q : Slot} (he : Effect s a t) (hq : s.state q ≠ .unused)
    (hq' : t.state q = .unused) : (∃ p, s.stage p = .fresh q ∧ t.stage p = .idle) ∨
      ∃ p e, a = .step p e ∧ s.pc p = .waiting ∧ s.t.waitScan p = .reaped q := by
  have hupdate : ∀ (x : Slot) (v : ProcState), t.state = Function.update s.state x v →
      x = q ∧ v = .unused := by
    intro x v hstate
    rw [hstate, Function.update_apply] at hq'
    split_ifs at hq' with hx
    · exact ⟨hx.symm, hq'⟩
    · exact absurd hq' hq
  cases he with
  | quiet _ _ hstate => exact absurd ((hstate q).unused hq') hq
  | leave p _ _ _ hleft hothers _ =>
    by_cases hqp : q = p
    · subst hqp
      rw [hq'] at hleft
      obtain hl | hl := hleft <;> cases hl
    · rw [hothers q hqp] at hq'
      exact absurd hq' hq
  | alloc p np _ _ _ _ _ _ _ _ hstate => exact nomatch (hupdate _ _ hstate).2
  | release p np _ hfresh hstage hstate =>
    obtain ⟨rfl, -⟩ := hupdate _ _ hstate
    refine .inl ⟨p, hfresh, ?_⟩
    rw [hstage, Function.update_self]
  | enterUnlisted p np _ _ _ _ hstate =>
    rw [hstate] at hq'
    exact absurd hq' hq
  | enter p np k c i _ _ _ _ _ _ _ _ hstate =>
    rw [hstate] at hq'
    exact absurd hq' hq
  | name p np k _ _ _ _ _ _ hstate =>
    rw [hstate] at hq'
    exact absurd hq' hq
  | publish p np k _ _ _ hstate => exact nomatch (hupdate _ _ hstate).2
  | delist p pp _ _ _ _ _ _ _ hstate =>
    rw [hstate] at hq'
    exact absurd hq' hq
  | exit p _ _ _ _ _ hzombie hothers =>
    by_cases hqp : q = p
    · subst hqp
      rw [hzombie] at hq'
      cases hq'
    · exact absurd ((hothers q hqp).unused hq') hq
  | reap p x _ _ _ hact hpc hreaped _ _ _ hstate =>
    obtain ⟨rfl, -⟩ := hupdate _ _ hstate
    obtain ⟨e, rfl⟩ := hact
    exact .inr ⟨p, e, rfl, hpc, hreaped⟩

theorem Unkilled.step (h : Unkilled s) (hg : KillsInUse s a) (ht : Containers.step s a = .ok t) :
    Unkilled t := by
  intro q hq
  by_contra hkilled
  have hold := killed_of_step ht (eq_true_of_ne_false hkilled)
  by_cases huse : s.state q = .unused
  · obtain hold | ⟨p, pid, rfl, hpid⟩ := hold
    · rw [h q huse] at hold
      cases hold
    · exact hg q hpid huse
  · obtain ⟨p, hfresh, hidle⟩ | ⟨p, e, rfl, hpc, hreaped⟩ := out_of_use (step_effect ht) huse hq
    · obtain ⟨e, rfl⟩ := step_of_stage (q := p) ht (by rw [hfresh, hidle]; exact nofun)
      obtain hold | ⟨p', pid, hact, -⟩ := hold
      · rw [hg q (gives_up ht hfresh hidle)] at hold
        cases hold
      · cases hact
    · rw [reap_step hpc hreaped ht] at hkilled
      simp [Sys.core, Sys.back, Tables.reap, Proc.core] at hkilled

theorem Booted.unkilled (h : Booted s) : Unkilled s := by
  obtain ⟨page, t, ht, rfl⟩ := h
  obtain ⟨t', ht', -, -, -, -, hproc, -⟩ := Tables.userinit_ok page
  cases Except.ok.inj (ht.symm.trans ht')
  intro q _
  simp only [Sys.core, boot, hproc, Function.update_apply]
  split_ifs <;> rfl

/-- A process does not inherit a kill. -/
theorem killsOk_of_killsInUse (hs : Reach step KillsInUse Booted s) (hg : KillsInUse s a)
    (ht : step s a = .ok t) : KillsOk s a t := by
  have h : Unkilled s := hs.invariant (fun _ => Booted.unkilled) fun _ _ _ h hg ht => h.step hg ht
  refine ⟨?_, ?_⟩
  · rintro p e k np rfl hpc hnext
    have ht' := ht
    simp only [step] at ht'
    split_ifs at ht'
    simp only [sectionStep, hpc] at ht'
    split at ht'
    · cases ht'
    · cases ht'
      simp [Sys.back] at hnext
    next x y hx =>
      cases ht'
      simp only [Sys.goto, Function.update_self] at hnext
      cases hnext
      obtain ⟨hunused, -, rfl⟩ := Tables.allocproc_some hx
      have := h np hunused
      simpa [Sys.core, Sys.goto, Proc.core, Tables.setProc] using this
  · rintro p pid rfl
    simp only [step] at ht
    split_ifs at ht
    simp only [callStep] at ht
    cases hfind : Fin.find? (fun x => (s.t.proc x).pid == pid) with
    | none =>
      rw [Tables.kill_none hfind] at ht
      cases ht
      refine ⟨fun hret => ?_, fun _ _ => rfl⟩
      simp [Sys.back] at hret
    | some x =>
      rw [Tables.kill_some hfind] at ht
      cases ht
      have hpid : s.pid x = pid := beq_iff_eq.mp (Fin.find?_eq_some_iff.mp hfind).1
      refine ⟨fun _ => ⟨x, hpid, hg x hpid⟩, fun q hq => ?_⟩
      refine Tables.setProc_of_ne _ _ _ _ ?_
      rintro rfl
      exact hg q hpid hq

/-! ### Runs -/

instance (t : Tables) (c : ℤ) : Decidable (t.Exhausted c) :=
  inferInstanceAs (Decidable (∃ (k : Fin NCONT) (i : Fin MCONT), c = k.val ∧
    (t.container k).used = i.val ∧ (t.container k).startAddr i = none))

instance (t : Tables) (c : ℤ) : Decidable (t.Full c) :=
  inferInstanceAs (Decidable (∃ k : Fin NCONT, c = k.val ∧ ∀ i, ((t.container k).process i).isSome))

instance (t : Tables) (cur : Slot) (k : Creator) : Decidable (k.Full t cur) :=
  match k with
  | .fork => inferInstanceAs (Decidable (_ ∧ t.Full _))
  | .join c _ => inferInstanceAs (Decidable (t.Full c))

instance (s : Sys) (p : Slot) (e : Env) (np : Slot) : Decidable (s.GivesUp p e np) := by
  unfold Sys.GivesUp
  split <;> infer_instance

instance (s : Sys) (a : Act) : Decidable (KillsInUse s a) :=
  match a with
  | .call _ (.kill pid) => inferInstanceAs (Decidable (∀ q, s.pid q = pid → s.state q ≠ .unused))
  | .step p e => inferInstanceAs (Decidable (∀ np, s.GivesUp p e np → (s.core np).killed = false))
  | .call _ .fork | .call _ (.join_container _) | .call _ .leave_container
  | .call _ .create_container | .call _ (.containerProcessNum _) | .call _ .exit | .call _ .wait
  | .call _ .scheduler_log_on | .yield _ | .sleep _ _ | .wakeup _ | .sched _ => .isTrue trivial

/-- The first process forks a child and kills it; the next step gives a slot to a second
child. -/
theorem killsOk_after_kill : ∃ s t, (s.core 1).killed = true ∧ KillsOk s (.step 0 answers) t := by
  have hboot : Reach step KillsInUse Booted firstBoot := .start booted_firstBoot
  obtain ⟨s, hs, ht⟩ := hboot.of_endsIn
    (fun s => (s.core 1).killed && decide (KillsInUse s (.step 0 answers)) &&
      match step s (.step 0 answers) with
      | .ok _ => true
      | .error _ => false)
    (turns 2 ++ .call 0 .fork :: sections 0 6 ++ [.call 0 (.kill 2), .call 0 .fork])
    (by decide +kernel)
  simp only [Bool.and_eq_true, decide_eq_true_eq] at ht
  obtain ⟨⟨hkilled, hg⟩, hstep⟩ := ht
  split at hstep
  next t ht => exact ⟨s, t, hkilled, killsOk_of_killsInUse hs hg ht⟩
  next => cases hstep

/-- `kill(0)` says 0, and the next process starts out killed. -/
theorem kill_zero_kills_next : ∃ s t, Reach step always Booted s ∧ s.ret 0 = 0 ∧
    step s (.step 0 answers) = .ok t ∧ ¬ KillsOk s (.step 0 answers) t := by
  have hboot : Reach step always Booted firstBoot := .start booted_firstBoot
  obtain ⟨s, hs, ht⟩ := hboot.of_endsIn
    (fun s => decide (s.ret 0 = 0) && decide (s.pc 0 = .alloc .fork) &&
      match step s (.step 0 answers) with
      | .ok t => decide (t.pc 0 = .kstack .fork 1) && (t.core 1).killed
      | .error _ => false)
    (turns 2 ++ [.call 0 (.kill 0), .call 0 .fork]) (by decide +kernel)
  simp only [Bool.and_eq_true, decide_eq_true_eq] at ht
  obtain ⟨⟨hret, hpc⟩, hstep⟩ := ht
  split at hstep
  next t ht =>
    simp only [Bool.and_eq_true, decide_eq_true_eq] at hstep
    refine ⟨s, t, hs, hret, ht, fun h => ?_⟩
    have := h.handed 0 answers .fork 1 rfl hpc hstep.1
    rw [hstep.2] at this
    cases this
  next => cases hstep

end Xv6Container.Containers
