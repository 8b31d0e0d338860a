import Xv6Container.Containers.Forks
import Xv6Container.Shell.Programs

/-! Shells as processes of the container kernel. Some processes run the programs of `sh.c`, the others
make any calls; all of them are interleaved. -/

namespace Xv6Container.Shell

open Function Lib
open Containers (Act Call Pc Slot Sys Booted FullFork HasChildren Parents Pids InCall)

/-! ### The system -/

/-- The kernel, and the rest of the program of each process that runs `sh.c`. -/
structure Machine where
  kernel : Sys
  prog : Slot → Option Prog

inductive Move where
  | kernel (a : Act)
  | sys (p : Slot) (ok : Bool)
  | exec (p : Slot) (ok : Bool)
  /-- `sh` is started, and this is what it is going to read. -/
  | start (p : Slot) (lines : List Line)

namespace Machine

/-- A shell makes the calls of its program. -/
def allows (m : Machine) : Act → Bool
  | .call p c =>
    match m.prog p with
    | none => true
    | some prog => prog.call = some c
  | _ => true

/-- After the section at the given place: a child goes on where its parent calls `fork`. -/
def born (m : Machine) (p : Slot) : Pc → Slot → Option Prog
  | .publish .fork np => update m.prog np ((m.prog p).map (Prog.resume 0))
  | .publish (.join _ _) np => update m.prog np none
  | _ => m.prog

/-- The programs after an action of the kernel that leads to `t`. -/
def after (m : Machine) (t : Sys) : Act → Slot → Option Prog
  | .step p _ =>
    let prog := m.born p (m.kernel.pc p)
    if t.pc p = .user then update prog p ((m.prog p).map (Prog.resume (t.ret p))) else prog
  | _ => m.prog

/-- A process that runs in user mode. -/
def inUser (m : Machine) (p : Slot) : Prop := m.kernel.state p = .running ∧ m.kernel.pc p = .user

instance (m : Machine) (p : Slot) : Decidable (m.inUser p) := inferInstanceAs (Decidable (_ ∧ _))

end Machine

def move (m : Machine) : Move → Except Containers.Stop Machine
  | .kernel a =>
    if m.allows a then
      match Containers.step m.kernel a with
      | .error e => .error e
      | .ok t => .ok ⟨t, m.after t a⟩
    else .error .disabled
  | .sys p ok =>
    if m.inUser p then
      match m.prog p with
      | some (.sys next) => .ok { m with prog := update m.prog p (some (next ok)) }
      | _ => .error .disabled
    else .error .disabled
  | .exec p ok =>
    if m.inUser p then
      match m.prog p with
      | some (.exec next) => .ok { m with prog := update m.prog p (if ok then none else some next) }
      | _ => .error .disabled
    else .error .disabled
  | .start p lines =>
    if m.inUser p ∧ m.prog p = none then
      .ok { m with prog := update m.prog p (some (main lines)) }
    else .error .disabled

/-- The machine before the first process runs. -/
def Started (m : Machine) : Prop := Booted m.kernel ∧ m.prog = fun _ => none

/-- No shell that calls `fork` finds the list of its container full. -/
def Room (m : Machine) : Move → Prop
  | .kernel (.step p _) => m.prog p ≠ none → ¬ FullFork m.kernel p
  | _ => True

/-! ### Programs and places -/

/-- Where a process can be inside the kernel when this is the rest of its program. -/
inductive Prog.At : Prog → Pc → Prop
  | user (prog : Prog) : At prog .user
  | fork {next : ℤ → Prog} {pc : Pc} (h : pc.inFork) : At (.fork next) pc
  | wait {next : Prog} : At (.wait next) .waiting
  | exit : At .exit (.exiting false)

/-- The program of a process fits the place of the process, and its children. -/
structure Fits (s : Sys) (p : Slot) (prog : Prog) : Prop where
  place : prog.At (s.pc p)
  sound : ∃ n, HasChildren s p n ∧ prog.Sound n

structure Ok (m : Machine) : Prop where
  parents : Parents m.kernel
  pids : Pids m.kernel
  inCall : InCall m.kernel
  fits : ∀ p prog, m.prog p = some prog → (m.kernel.state p).live → Fits m.kernel p prog

variable {m m' : Machine} {s t : Sys} {a : Act} {p q np : Slot} {e : Containers.Env} {prog : Prog}

theorem Started.ok (h : Started m) : Ok m where
  parents := h.1.parents
  pids := h.1.pids
  inCall := h.1.inCall
  fits p prog hp := by
    rw [h.2] at hp
    cases hp

/-- Another process acts. -/
theorem Fits.other (h : Fits s p prog) (hparents : Parents s) (ht : Containers.step s a = .ok t)
    (hp : (t.state p).live) (hpc : t.pc p = s.pc p) (ha : ∀ e, a ≠ .step p e) : Fits t p prog := by
  obtain ⟨n, hn, hsound⟩ := h.sound
  refine ⟨hpc ▸ h.place, n, ?_, hsound⟩
  obtain hn | ⟨-, e, q, hact, -⟩ := hn.step hparents ht hp
  · exact hn
  · exact absurd hact (ha e)

/-- A shell makes a call. -/
theorem Fits.call {c : Call} (h : Fits s p prog) (hparents : Parents s) (hc : prog.call = some c)
    (ht : Containers.step s (.call p c) = .ok t) (hp : (t.state p).live) : Fits t p prog := by
  have hplace : prog.At (t.pc p) := by
    simp only [Containers.step] at ht
    split_ifs at ht
    cases prog with
    | fork next =>
      cases hc
      cases ht
      refine .fork ?_
      simp only [Sys.goto, update_self]
      rfl
    | wait next =>
      cases hc
      cases ht
      simp only [Sys.goto, update_self]
      exact .wait
    | exit =>
      cases hc
      simp only [Containers.callStep] at ht
      split_ifs at ht
      cases ht
      simp only [Sys.goto, update_self]
      exact .exit
    | _ => cases hc
  obtain ⟨n, hn, hsound⟩ := h.sound
  obtain hn | ⟨-, e, q, hact, -⟩ := hn.step hparents ht hp
  · exact ⟨hplace, n, hn, hsound⟩
  · cases hact

/-- The rest of the program after a section of the process. -/
def Prog.rest (prog : Prog) (t : Sys) (p : Slot) : Prog :=
  if t.pc p = .user then prog.resume (t.ret p) else prog

/-- A call of `fork` goes on, or comes back with -1 or with a child. -/
theorem Fits.fork {next : ℤ → Prog} (h : Fits s p (.fork next)) (hparents : Parents s)
    (hpids : Pids s) (hroom : ¬ FullFork s p) (hpc : (s.pc p).inFork)
    (ht : Containers.step s (.step p e) = .ok t) (hp : (t.state p).live) :
    Fits t p (Prog.rest (.fork next) t p) := by
  obtain ⟨n, hn, hchild, hfailed, hparent⟩ := h.sound
  have hkeep : HasChildren t p n := by
    obtain hn | ⟨-, e, q, -, hwait, -⟩ := hn.step hparents ht hp
    · exact hn
    · rw [hwait] at hpc
      exact hpc.elim
  cases Containers.fork_step hpc ht with
  | goesOn hin _ =>
    have hne : t.pc p ≠ .user := by
      intro huser
      rw [huser] at hin
      exact hin
    rw [Prog.rest, if_neg hne]
    exact ⟨.fork hin, n, hkeep, hchild, hfailed, hparent⟩
  | failed hback hret _ _ =>
    rw [Prog.rest, if_pos hback, hret]
    exact ⟨hback ▸ .user _, n, hkeep, hfailed⟩
  | full _ _ hfull => exact absurd hfull hroom
  | child np hpublish hback hret htables =>
    have hembryo := hparents.holders.embryo p np (by rw [Sys.stage, hpublish]; rfl)
    have hpos : 0 < s.pid np := Containers.pid_pos hpids (by rw [hembryo]; rintro ⟨⟩)
    rw [Prog.rest, if_pos hback, hret]
    exact ⟨hback ▸ .user _, n + 1, hn.publish hparents ht hp hpublish htables, hparent _ hpos⟩

/-- A call of `wait` comes back, or goes to sleep. -/
theorem Fits.wait {next : Prog} (h : Fits s p (.wait next)) (hparents : Parents s)
    (hpc : s.pc p = .waiting) (ht : Containers.step s (.step p e) = .ok t) (hp : (t.state p).live) :
    Fits t p (Prog.rest (.wait next) t p) := by
  obtain ⟨n, hn, hpos, hsound⟩ := h.sound
  have hback : t.pc p = .user → Fits t p (Prog.rest (.wait next) t p) := by
    intro huser
    have hless : HasChildren t p (n - 1) := by
      obtain hn | ⟨hn, -⟩ := hn.step hparents ht hp
      · exact hn.mono (Nat.sub_le n 1)
      · exact hn
    rw [Prog.rest, if_pos huser]
    exact ⟨huser ▸ .user _, n - 1, hless, hsound⟩
  cases hscan : s.t.waitScan p with
  | reaped q =>
    refine hback ?_
    rw [Containers.reap_step hpc hscan ht]
    exact update_self ..
  | noKids =>
    refine hback ?_
    have hsec := (Containers.running_of_step ht).2
    simp only [Containers.sectionStep, hpc, hscan, Except.ok.injEq] at hsec
    rw [← hsec]
    exact update_self ..
  | sleep =>
    have hwait : t.pc p = .waiting := by
      rw [Containers.wait_step hpc hscan ht]
      exact update_self ..
    have hne : t.pc p ≠ .user := by
      rw [hwait]
      rintro ⟨⟩
    obtain hn | ⟨-, e', q, -, -, hq⟩ := hn.step hparents ht hp
    · rw [Prog.rest, if_neg hne]
      exact ⟨hwait ▸ .wait, n, hn, hpos, hsound⟩
    · cases hscan.symm.trans hq

theorem Fits.section (h : Fits s p prog) (hparents : Parents s) (hpids : Pids s)
    (hroom : ¬ FullFork s p) (ht : Containers.step s (.step p e) = .ok t) (hp : (t.state p).live) :
    Fits t p (prog.rest t p) := by
  generalize hpc : s.pc p = pc
  have hplace := h.place
  rw [hpc] at hplace
  cases hplace with
  | user =>
    have hsec := (Containers.running_of_step ht).2
    simp only [Containers.sectionStep, hpc] at hsec
    cases hsec
  | fork hin => exact h.fork hparents hpids hroom (hpc ▸ hin) ht hp
  | wait => exact h.wait hparents hpc ht hp
  | exit =>
    have hzombie : t.state p = .zombie := Containers.zombie_of_exit hpc ht
    rw [hzombie] at hp
    exact hp.elim

/-! ### The machine -/

theorem held_of_publish {k : Containers.Creator} (hpc : s.pc p = .publish k np) :
    (s.stage p).held = some np := by
  rw [Sys.stage, hpc]
  rfl

/-- A section does not write to the program of a live process by giving birth. -/
theorem born_of_live (h : Ok m) (hq : (m.kernel.state q).live) :
    m.born p (m.kernel.pc p) q = m.prog q := by
  cases hpc : m.kernel.pc p with
  | publish k np =>
    have hne : q ≠ np := h.parents.holders.ne_held hq (held_of_publish hpc)
    cases k with
    | fork => exact update_of_ne hne ..
    | join c pp => exact update_of_ne hne ..
  | _ => rfl

theorem after_self (h : Ok m) (hrun : (m.kernel.state p).live) :
    m.after t (.step p e) p = (m.prog p).map fun prog => prog.rest t p := by
  simp only [Machine.after]
  split_ifs with huser
  · rw [update_self]
    simp only [Prog.rest, if_pos huser]
  · rw [born_of_live h hrun]
    simp only [Prog.rest, if_neg huser, Option.map_id']

theorem after_other (h : Ok m) (hq : (m.kernel.state q).live) (ha : ∀ e, a ≠ .step q e) :
    m.after t a q = m.prog q := by
  cases a with
  | step p e =>
    have hne : q ≠ p := by
      rintro rfl
      exact ha e rfl
    simp only [Machine.after]
    split_ifs
    · rw [update_of_ne hne, born_of_live h hq]
    · exact born_of_live h hq
  | _ => rfl

/-- A child of a shell goes on with the answer 0, and has no children. -/
theorem Fits.child (h : Ok m) (hpc : m.kernel.pc p = .publish .fork np) (hprog : m.prog p = some prog)
    (hrun : (m.kernel.state p).live) (hnp : t.pc np = .user) : Fits t np (prog.resume 0) := by
  obtain ⟨hplace, n, -, hsound⟩ := h.fits p prog hprog hrun
  rw [hpc] at hplace
  cases hplace with
  | fork _ => exact ⟨hnp ▸ .user _, 0, .zero, hsound.1⟩

theorem Ok.kernel (h : Ok m) (hallows : m.allows a = true)
    (hroom : ∀ p e, a = .step p e → m.prog p ≠ none → ¬ FullFork m.kernel p)
    (ht : Containers.step m.kernel a = .ok t) : Ok ⟨t, m.after t a⟩ where
  parents := h.parents.step ht
  pids := h.pids.step h.parents.holders (Containers.step_effect ht)
  inCall := h.inCall.step h.parents.holders ht
  fits p prog hprog hlive := by
    change (t.state p).live at hlive
    change m.after t a p = some prog at hprog
    obtain hold | ⟨r, k, e, rfl, hpc⟩ := Containers.live_or_published ht hlive
    · by_cases hstep : ∃ e, a = .step p e
      · obtain ⟨e, rfl⟩ := hstep
        rw [after_self h hold] at hprog
        obtain ⟨prog', hprog', rfl⟩ := Option.map_eq_some_iff.1 hprog
        exact (h.fits p prog' hprog' hold).section h.parents h.pids
          (hroom p e rfl (by rw [hprog']; rintro ⟨⟩)) ht hlive
      · have hne := not_exists.1 hstep
        rw [after_other h hold hne] at hprog
        have hfits := h.fits p prog hprog hold
        by_cases hpc : t.pc p = m.kernel.pc p
        · exact hfits.other h.parents ht hlive hpc hne
        · obtain ⟨c, rfl, -⟩ | ⟨e, he⟩ := Containers.step_pc ht hpc
          · simp only [Machine.allows, hprog, decide_eq_true_eq] at hallows
            exact hfits.call h.parents hallows ht hlive
          · exact absurd he (hne e)
    · -- a new process
      have hrun := (Containers.running_of_step ht).1
      have hembryo := h.parents.holders.embryo r p (held_of_publish hpc)
      have hrp : p ≠ r := by
        rintro rfl
        cases hembryo.symm.trans hrun
      have hborn : m.born r (m.kernel.pc r) p = some prog := by
        simp only [Machine.after] at hprog
        split_ifs at hprog
        · rwa [update_of_ne hrp] at hprog
        · exact hprog
      have huser : t.pc p = .user := by
        rw [Containers.section_pc (Containers.running_of_step ht).2 hrp]
        by_contra hne
        have := h.inCall.live p hne
        rw [hembryo] at this
        exact this
      rw [hpc] at hborn
      cases k with
      | join c pp =>
        simp only [Machine.born, update_self] at hborn
        cases hborn
      | fork =>
        simp only [Machine.born, update_self] at hborn
        obtain ⟨prog', hprog', rfl⟩ := Option.map_eq_some_iff.1 hborn
        exact .child h hpc hprog' (by rw [hrun]; trivial) huser

/-- A process that runs in user mode goes on with its program. -/
theorem Ok.inUser (h : Ok m) (hp : m.inUser p) {prog' : Option Prog}
    (hsound : ∀ prog, prog' = some prog → ∃ n, HasChildren m.kernel p n ∧ prog.Sound n) :
    Ok { m with prog := update m.prog p prog' } where
  parents := h.parents
  pids := h.pids
  inCall := h.inCall
  fits q prog hq hlive := by
    by_cases hqp : q = p
    · subst hqp
      simp only [update_self] at hq
      exact ⟨hp.2 ▸ .user prog, hsound prog hq⟩
    · simp only [update_of_ne hqp] at hq
      exact h.fits q prog hq hlive

theorem Ok.move {b : Move} (h : Ok m) (hroom : Room m b) (ht : Shell.move m b = .ok m') : Ok m' := by
  cases b with
  | kernel a =>
    simp only [Shell.move] at ht
    split_ifs at ht with hallows
    split at ht
    · cases ht
    next t hstep =>
      cases ht
      refine h.kernel hallows ?_ hstep
      rintro p e rfl
      exact hroom
  | sys p ok =>
    simp only [Shell.move] at ht
    split_ifs at ht with hp
    split at ht
    next next hprog =>
      cases ht
      obtain ⟨n, hn, hsound⟩ := (h.fits p _ hprog (by rw [hp.1]; trivial)).sound
      refine h.inUser hp ?_
      rintro prog ⟨⟩
      exact ⟨n, hn, hsound ok⟩
    next => cases ht
  | exec p ok =>
    simp only [Shell.move] at ht
    by_cases hp : m.inUser p
    · rw [if_pos hp] at ht
      split at ht
      next next hprog =>
        cases ht
        obtain ⟨n, hn, hsound⟩ := (h.fits p _ hprog (by rw [hp.1]; trivial)).sound
        refine h.inUser hp ?_
        intro prog hprog'
        split_ifs at hprog'
        cases hprog'
        exact ⟨n, hn, hsound⟩
      next => cases ht
    · rw [if_neg hp] at ht
      cases ht
  | start p lines =>
    simp only [Shell.move] at ht
    split_ifs at ht with hp
    cases ht
    refine h.inUser hp.1 ?_
    rintro prog ⟨⟩
    exact ⟨0, .zero, sound_main lines 0⟩

/-- `fork1` of a process returns only with a child, unless the list of its container has been full
when `fork` looked for an entry. In the runs of the kernel with shells in which this does not happen
to a shell, `runcmd` and `main` wait only for children that exist. -/
theorem fork1_iff (hs : Reach Containers.step always Booted s) (hpc : (s.pc p).inFork)
    (ht : Containers.step s (.step p e) = .ok t) (hback : t.pc p = .user) :
    (((fork1 (t.ret p)).isSome → Containers.NewChild t p (t.ret p)) ↔ ¬ FullFork s p) ∧
    ∀ m, Reach move Room Started m → ∀ q next, (m.kernel.state q).live →
      m.prog q = some (.wait next) →
      ∃ c, m.kernel.parent c = some q ∧ (m.kernel.state c).created := by
  constructor
  · have h : Parents s ∧ Pids s := hs.invariant (I := fun s => Parents s ∧ Pids s)
      (fun _ hb => ⟨hb.parents, hb.pids⟩)
      fun _ _ _ h _ ht => ⟨h.1.step ht, h.2.step h.1.holders (Containers.step_effect ht)⟩
    have hpids : Pids t := h.2.step h.1.holders (Containers.step_effect ht)
    cases Containers.fork_step hpc ht with
    | goesOn hin _ =>
      rw [hback] at hin
      exact hin.elim
    | failed _ hret hfull _ =>
      rw [hret]
      exact iff_of_true (fun hsome => absurd hsome (by decide)) hfull
    | full _ hret hfull =>
      refine iff_of_false ?_ (not_not.2 hfull)
      intro hchild
      obtain ⟨q, -, hpid, -⟩ := hchild (by rw [hret]; decide)
      have hrange := (hpids.tickets.range q).1
      rw [hpid, hret] at hrange
      exact absurd hrange (by decide)
    | child np hpublish _ hret htables =>
      obtain ⟨hparent, hpid, hrun⟩ := Containers.published h.1 hpublish htables
      refine iff_of_true (fun _ => ⟨np, hparent, hpid.trans hret.symm, hrun⟩) ?_
      rintro ⟨np', hlist, -⟩
      cases hpublish.symm.trans hlist
  · intro m hm q next hlive hprog
    have h : Ok m := hm.invariant (fun _ => Started.ok) fun _ _ _ h hg ht => h.move hg ht
    obtain ⟨n, hn, hpos, -⟩ := (h.fits q _ hprog hlive).sound
    exact hn.exists hpos

/-- The first process forks its first child. -/
theorem fork1_iff_first : ∃ s t, Containers.step s (.step 0 Containers.answers) = .ok t ∧
    Containers.NewChild t 0 (t.ret 0) := by
  have hboot : Reach Containers.step always Booted Containers.firstBoot :=
    .start Containers.booted_firstBoot
  obtain ⟨s, hs, hend⟩ := hboot.of_endsIn
    (fun s => decide (s.pc 0 = .publish .fork 1) &&
      match Containers.step s (.step 0 Containers.answers) with
      | .ok t => decide (t.pc 0 = .user ∧ t.ret 0 ≠ -1)
      | .error _ => false)
    (Containers.turns 2 ++ .call 0 .fork :: Containers.sections 0 5) (by decide +kernel)
  rw [Bool.and_eq_true, decide_eq_true_eq] at hend
  obtain ⟨hpc, hend⟩ := hend
  split at hend
  next t ht =>
    obtain ⟨hback, hret⟩ := of_decide_eq_true hend
    refine ⟨s, t, ht, (fork1_iff hs (by rw [hpc]; rfl) ht hback).1.2 ?_ ?_⟩
    · rintro ⟨np, hlist, -⟩
      cases hpc.symm.trans hlist
    · rw [fork1, if_neg hret]
      rfl
  next => cases hend

def firstMachine : Machine := ⟨Containers.firstBoot, fun _ => none⟩

theorem started_firstMachine : Started firstMachine := ⟨Containers.booted_firstBoot, rfl⟩

/-- The first process of container 1 forks until its list is full, and its first child is run. -/
def fullRun : List Act :=
  Containers.joinRun ++ (List.replicate 9 (.call 2 .fork :: Containers.sections 2 6)).flatten ++
  .yield 2 :: Containers.turns 6 ++ .yield 0 :: Containers.turns 4

/-- The child starts a shell, which reads a command. -/
def waitRun : List Move :=
  fullRun.map .kernel ++ .start 3 [.cmd none] :: .kernel (.call 3 .fork) ::
    (Containers.sections 3 4).map .kernel

/-- The next call is `wait`. -/
def Prog.waits : Prog → Bool
  | .wait _ => true
  | _ => false

/-- `fork1` returns -2, and `main` waits for a child that does not exist. -/
theorem waits_without_child : ∃ m, Reach move always Started m ∧ m.kernel.ret 3 = -2 ∧
    m.kernel.state 3 = .running ∧
    (∃ next, m.prog 3 = some (.wait next)) ∧ ∀ q, m.kernel.parent q ≠ some 3 := by
  have hstart : Reach move always Started firstMachine := .start started_firstMachine
  obtain ⟨m, hm, hend⟩ := hstart.of_endsIn
    (fun m => decide (m.kernel.ret 3 = -2 ∧ m.kernel.state 3 = .running ∧
      ∀ q, m.kernel.parent q ≠ some 3) && (m.prog 3).any Prog.waits) waitRun (by decide +kernel)
  rw [Bool.and_eq_true, decide_eq_true_eq, Option.any_eq_true] at hend
  obtain ⟨⟨hret, hrun, hchild⟩, prog, hprog, hwaits⟩ := hend
  refine ⟨m, hm, hret, hrun, ?_, hchild⟩
  cases prog with
  | wait next => exact ⟨next, hprog⟩
  | _ => cases hwaits

end Xv6Container.Shell
