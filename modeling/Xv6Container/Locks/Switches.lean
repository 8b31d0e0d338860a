import Xv6Container.Locks.Exclusion

/-! What spin locks are for: a lock is held by one CPU at a time, with its interrupts off, so an interrupt
never waits for a lock of the thread it has interrupted; a thread is on one CPU at a time; and after its
last `release` it finds FL_IF as it was before the first `acquire`, on whichever CPU it is by then. -/

namespace Xv6Container.Locks.Spin

open Lib
open Containers (ProcState)

universe u

variable {κ π Λ : Type u} {ptable l : Λ} {c d : κ} {x : Cpu κ π} {f g : Frame Λ} {b : Bool}

/-! ### All CPUs -/

/-- A part of a thread that an interrupt handler runs on top of. -/
structure Frame.Interrupted (f : Frame Λ) : Prop where
  held : f.held = []
  mayOpen : f.pc.mayOpen = true
  eflags : ∀ l e, f.pc = .cli l e → e = true
  saves : f.Saves

/-- Where FL_IF is set, a thread holds nothing and may be interrupted. -/
theorem Fits.interrupted (h : Fits ptable x f) (hx : x.interruptible = true) : f.Interrupted := by
  refine ⟨(h.off hx).1, (h.off hx).2, fun l e he => ?_, h.saves⟩
  rw [h.eflags l e he, hx]

/-- What has been interrupted goes on with FL_IF set. -/
theorem Frame.Interrupted.fits (h : f.Interrupted) (hn : x.ncli = 0) (hx : x.interruptible = true) :
    Fits ptable x f := by
  have hheld := h.held
  have hopen := h.mayOpen
  refine ⟨?_, fun _ => ⟨hheld, hopen⟩, fun l e he => ?_, ?_, ?_, h.saves, fun hpos => ?_⟩
  · rw [hn, hheld]
    obtain ⟨pc, held, b⟩ := f
    cases pc <;> first | rfl | cases hopen
  · rw [hx]
    exact h.eflags l e he
  · rw [hheld]
    exact List.nodup_nil
  · obtain ⟨pc, held, b⟩ := f
    have hheld : held = [] := hheld
    subst hheld
    cases pc with
    | running => trivial
    | cli l e => exact List.not_mem_nil
    | _ => cases hopen
  · rw [hn] at hpos
    exact absurd hpos (lt_irrefl 0)

theorem Frame.Interrupted.leaving (h : f.Interrupted) : f.pc.leaving = false := by
  have hopen := h.mayOpen
  obtain ⟨pc, held, b⟩ := f
  cases pc <;> first | rfl | cases hopen

theorem Frame.Interrupted.not_has (h : f.Interrupted) (l : Λ) :
    f.pc ≠ .record l ∧ f.pc ≠ .unlock l := by
  have hopen := h.mayOpen
  refine ⟨fun hpc => ?_, fun hpc => ?_⟩ <;>
    · rw [hpc] at hopen
      cases hopen

/-- A thread that is on no CPU has no locks and, if it may be switched to, comes back from `swtch`. -/
def State.Away (s : State κ π Λ) : Thread κ π → Prop
  | .scheduler c => (s.top (.scheduler c)).held = [] ∧ (s.top (.scheduler c)).pc = .running
  | .proc p => (s.top (.proc p)).held = [] ∧
    (s.state p = .embryo ∨ s.state p = .runnable ∨ s.state p = .sleeping →
      (s.top (.proc p)).pc.comesBack = true ∧ (s.top (.proc p)).Saves)

structure Good (ptable : Λ) (s : State κ π Λ) : Prop where
  fits : ∀ c, Fits ptable (s.cpu c) (s.own c)
  held : Held s.lock s.own
  scheduler : ∀ c d, (s.cpu c).thread = .scheduler d → c = d
  single : ∀ c d, (s.cpu c).thread = (s.cpu d).thread → c = d
  below : ∀ th, ∀ f ∈ s.below th, f.Interrupted
  away : ∀ th, (∀ c, (s.cpu c).thread ≠ th) → s.Away th
  running : ∀ c p, (s.cpu c).thread = .proc p → (s.own c).pc.leaving = false → s.state p = .running
  leaving : ∀ c, (s.own c).pc.leaving = true → ∃ p, (s.cpu c).thread = .proc p ∧
    (s.state p = .runnable ∨ s.state p = .sleeping ∨ s.state p = .zombie)

variable {s t : State κ π Λ} {p : π}

/-- A process whose state the holder of `ptable.lock` finds not to be RUNNING is on no CPU. -/
theorem Good.away_of_ptable (h : Good ptable s) (hc : ptable ∈ (s.own c).held)
    (hpc : (s.own c).pc.leaving = false) (hp : s.state p ≠ .running) (d : κ) :
    (s.cpu d).thread ≠ .proc p := by
  intro hd
  cases hl : (s.own d).pc.leaving with
  | false => exact hp (h.running d p hd hl)
  | true =>
    have hmem : ptable ∈ (s.own d).held := by
      rw [(h.fits d).placed.held_of_leaving hl]
      exact List.mem_singleton_self ptable
    have heq := h.held.eq d c ptable (.inl hmem) (.inl hc)
    rw [heq, hpc] at hl
    cases hl

variable [DecidableEq κ] [DecidableEq π]

/-- The thread of one CPU goes on. -/
theorem own_update (hsingle : ∀ c d, (s.cpu c).thread = (s.cpu d).thread → c = d)
    (hthread : ∀ d, (t.cpu d).thread = (s.cpu d).thread)
    (htop : t.top = Function.update s.top (s.cpu c).thread g) :
    t.own = Function.update s.own c g := by
  funext d
  rw [State.own, hthread, htop]
  by_cases hd : d = c
  · rw [hd, Function.update_self, Function.update_self]
  · rw [Function.update_of_ne hd, Function.update_of_ne fun heq => hd (hsingle d c heq)]
    rfl

/-- One CPU goes on with the thread that it has. -/
theorem Good.stay (h : Good ptable s) (hcpu : ∀ d, d ≠ c → t.cpu d = s.cpu d)
    (hthread : (t.cpu c).thread = (s.cpu c).thread)
    (htop : t.top = Function.update s.top (s.cpu c).thread g) (hstate : t.state = s.state)
    (hbelow : ∀ th, ∀ f ∈ t.below th, f.Interrupted) (hfits : Fits ptable (t.cpu c) g)
    (hheld : Held t.lock (Function.update s.own c g))
    (hleaving : g.pc.leaving = (s.own c).pc.leaving) : Good ptable t := by
  have hthreads (d : κ) : (t.cpu d).thread = (s.cpu d).thread := by
    by_cases hd : d = c
    · rw [hd, hthread]
    · rw [hcpu d hd]
  have hown := own_update h.single hthreads htop
  have hself : t.own c = g := by rw [hown, Function.update_self]
  have hne (d : κ) (hd : d ≠ c) : t.own d = s.own d := by rw [hown, Function.update_of_ne hd]
  have hleave (d : κ) : (t.own d).pc.leaving = (s.own d).pc.leaving := by
    by_cases hd : d = c
    · rw [hd, hself, hleaving]
    · rw [hne d hd]
  refine ⟨fun d => ?_, hown ▸ hheld, fun d e hd => ?_, fun d e hde => ?_, hbelow, fun th hth => ?_,
    fun d p hd hl => ?_, fun d hl => ?_⟩
  · by_cases hd : d = c
    · rw [hd, hself]
      exact hfits
    · rw [hne d hd, hcpu d hd]
      exact h.fits d
  · rw [hthreads] at hd
    exact h.scheduler d e hd
  · rw [hthreads, hthreads] at hde
    exact h.single d e hde
  · have haway := h.away th fun d => hthreads d ▸ hth d
    have htop : t.top th = s.top th := by
      rw [htop, Function.update_of_ne]
      exact (hthreads c ▸ hth c).symm
    cases th with
    | scheduler d =>
      rw [State.Away, htop]
      exact haway
    | proc p =>
      rw [State.Away, htop, hstate]
      exact haway
  · rw [hstate]
    exact h.running d p (hthreads d ▸ hd) (hleave d ▸ hl)
  · rw [hstate, hthreads]
    exact h.leaving d (hleave d ▸ hl)

/-- `sched` from the process that a CPU runs. -/
theorem Good.sched {st : ProcState} (h : Good ptable s) (hp : (s.cpu c).thread = .proc p)
    (hpc : (s.own c).pc = .running) (hheld : (s.own c).held = [ptable])
    (hst : st = .runnable ∨ st = .sleeping ∨ st = .zombie) :
    Good ptable ((s.setTop (.proc p) { s.own c with pc := .locked .sched ptable }).setProc p st) := by
  have hown : State.own ((s.setTop (.proc p) { s.own c with pc := .locked .sched ptable }).setProc p st) =
      Function.update s.own c { s.own c with pc := .locked .sched ptable } :=
    own_update (s := s) h.single (fun _ => rfl) (by rw [hp]; rfl)
  have hf := h.fits c
  have hpcs (l : Λ) : (s.own c).pc ≠ .record l ∧ (s.own c).pc ≠ .unlock l := by
    rw [hpc]
    exact ⟨by rintro ⟨⟩, by rintro ⟨⟩⟩
  have hoff : (s.cpu c).interruptible = false := by
    rw [← Bool.not_eq_true]
    intro hon
    have := (hf.off hon).1
    rw [hheld] at this
    cases this
  have hne {d : κ} {q : π} (hd : (s.cpu d).thread = .proc q) (hdc : d ≠ c) : q ≠ p := by
    rintro rfl
    exact hdc (h.single d c (hd.trans hp.symm))
  refine ⟨fun d => ?_, ?_, h.scheduler, h.single, h.below, fun th hth => ?_, fun d q hd hl => ?_,
    fun d hl => ?_⟩
  · rw [hown]
    by_cases hd : d = c
    · rw [hd, Function.update_self]
      refine ⟨?_, off_false hoff, by rintro _ _ ⟨⟩, hf.nodup, ⟨rfl, hheld⟩, trivial, fun hn _ => ?_⟩
      · have := hf.ncli
        rw [hpc] at this
        exact this
      · exact hf.intena hn (by rw [hpc]; rfl)
    · rw [Function.update_of_ne hd]
      exact h.fits d
  · rw [hown]
    exact h.held.same rfl (fun l => ⟨by rintro ⟨⟩, by rintro ⟨⟩⟩) hpcs
  · have haway := h.away th hth
    have hthp : th ≠ .proc p := fun heq => hth c (heq ▸ hp)
    cases th with
    | scheduler d => exact haway
    | proc q =>
      have hq : q ≠ p := fun heq => hthp (heq ▸ rfl)
      have htop : Function.update s.top (.proc p) { s.own c with pc := .locked .sched ptable } (.proc q) =
          s.top (.proc q) := Function.update_of_ne hthp ..
      have hstate : Function.update s.state p st q = s.state q := Function.update_of_ne hq ..
      rw [State.Away, State.setTop, State.setProc]
      dsimp only
      rw [htop, hstate]
      exact haway
  · rw [hown] at hl
    by_cases hd' : d = c
    · rw [hd', Function.update_self] at hl
      cases hl
    · rw [Function.update_of_ne hd'] at hl
      exact (Function.update_of_ne (hne hd hd') ..).trans (h.running d q hd hl)
  · by_cases hd : d = c
    · refine ⟨p, hd ▸ hp, ?_⟩
      rw [State.setProc]
      dsimp only
      rw [Function.update_self]
      exact hst
    · rw [hown, Function.update_of_ne hd] at hl
      obtain ⟨q, hq, hstate⟩ := h.leaving d hl
      refine ⟨q, hq, ?_⟩
      rw [State.setProc]
      dsimp only
      rw [Function.update_of_ne (hne hq hd)]
      exact hstate

/-- A process on no CPU gets a state that the code gives it. -/
theorem Good.setState {st : ProcState} (h : Good ptable s) (haway : ∀ d, (s.cpu d).thread ≠ .proc p)
    (htop : t.top = s.top ∨ t.top = Function.update s.top (.proc p) newThread)
    (hst : st = .unused ∨ t.top (.proc p) = newThread ∨ st = .runnable ∧
      (s.state p = .embryo ∨ s.state p = .runnable ∨ s.state p = .sleeping) ∧ t.top = s.top)
    (hcpu : t.cpu = s.cpu) (hlock : t.lock = s.lock) (hstate : t.state = Function.update s.state p st)
    (hbelow : ∀ th, ∀ f ∈ t.below th, f.Interrupted) : Good ptable t := by
  have hne (th : Thread κ π) (hth : th ≠ .proc p) : t.top th = s.top th := by
    rcases htop with htop | htop
    · rw [htop]
    · rw [htop, Function.update_of_ne hth]
  have hown : t.own = s.own := by
    funext c
    rw [State.own, hcpu, hne _ (haway c)]
    rfl
  have hsame {q : π} {d : κ} (hd : (s.cpu d).thread = .proc q) : t.state q = s.state q := by
    rw [hstate, Function.update_of_ne]
    rintro rfl
    exact haway d hd
  refine ⟨fun c => ?_, ?_, fun c d hc => ?_, fun c d hcd => ?_, hbelow, fun th hth => ?_,
    fun c q hc hl => ?_, fun c hl => ?_⟩
  · rw [hown, hcpu]
    exact h.fits c
  · rw [hown, hlock]
    exact h.held
  · rw [hcpu] at hc
    exact h.scheduler c d hc
  · rw [hcpu] at hcd
    exact h.single c d hcd
  · rw [hcpu] at hth
    have hbefore := h.away th hth
    cases th with
    | scheduler d =>
      rw [State.Away, hne _ (by rintro ⟨⟩)]
      exact hbefore
    | proc q =>
      by_cases hq : q = p
      · subst hq
        have hheld : (t.top (.proc q)).held = [] := by
          rcases htop with htop | htop
          · rw [htop]
            exact hbefore.1
          · rw [htop, Function.update_self]
            rfl
        refine ⟨hheld, fun hst' => ?_⟩
        rw [hstate, Function.update_self] at hst'
        rcases hst with rfl | hnew | ⟨-, hold, htop⟩
        · rcases hst' with hst' | hst' | hst' <;> cases hst'
        · rw [hnew]
          exact ⟨rfl, trivial⟩
        · rw [htop]
          exact hbefore.2 hold
      · have hth : Thread.proc q ≠ (.proc p : Thread κ π) := fun heq => hq (Thread.proc.inj heq)
        rw [State.Away, hne _ hth, hstate, Function.update_of_ne hq]
        exact hbefore
  · rw [hcpu] at hc
    rw [hown] at hl
    rw [hsame hc]
    exact h.running c q hc hl
  · rw [hown] at hl
    obtain ⟨q, hq, hstate⟩ := h.leaving c hl
    rw [hcpu]
    exact ⟨q, hq, by rwa [hsame hq]⟩

/-- A CPU switches to a thread that is on no CPU. -/
theorem Good.switch {th : Thread κ π} {g : Frame Λ} (h : Good ptable s)
    (hth : ∀ d, (s.cpu d).thread ≠ th) (hcpu : t.cpu = Function.update s.cpu c x)
    (hx : x.thread = th)
    (htop : t.top = Function.update (Function.update s.top (s.cpu c).thread f) th g)
    (hlock : t.lock = s.lock) (hbelow : t.below = s.below) (hfits : Fits ptable x g)
    (hheld : Held s.lock (Function.update s.own c g)) (hleaving : g.pc.leaving = false)
    (haway : t.Away (s.cpu c).thread) (hscheduler : ∀ d, th = .scheduler d → c = d)
    (hrunning : ∀ q, th = .proc q → t.state q = .running)
    (hstate : ∀ q, th ≠ .proc q → t.state q = s.state q) : Good ptable t := by
  have hcpuself : t.cpu c = x := by rw [hcpu, Function.update_self]
  have hcpune (d : κ) (hd : d ≠ c) : t.cpu d = s.cpu d := by rw [hcpu, Function.update_of_ne hd]
  have hself : t.own c = g := by rw [State.own, hcpuself, hx, htop, Function.update_self]
  have hne (d : κ) (hd : d ≠ c) : t.own d = s.own d := by
    rw [State.own, hcpune d hd, htop, Function.update_of_ne (hth d), Function.update_of_ne]
    · rfl
    · exact fun heq => hd (h.single d c heq)
  have hown : t.own = Function.update s.own c g := by
    funext d
    by_cases hd : d = c
    · rw [hd, hself, Function.update_self]
    · rw [hne d hd, Function.update_of_ne hd]
  have hother {d : κ} {q : π} (hd : (s.cpu d).thread = .proc q) : t.state q = s.state q :=
    hstate q fun heq => hth d (hd.trans heq.symm)
  refine ⟨fun d => ?_, ?_, fun d e hd => ?_, fun d e hde => ?_, hbelow ▸ h.below, fun a ha => ?_,
    fun d q hd hl => ?_, fun d hl => ?_⟩
  · by_cases hd : d = c
    · rw [hd, hself, hcpuself]
      exact hfits
    · rw [hne d hd, hcpune d hd]
      exact h.fits d
  · rw [hlock, hown]
    exact hheld
  · by_cases hdc : d = c
    · rw [hdc, hcpuself, hx] at hd
      rw [hdc]
      exact hscheduler e hd
    · rw [hcpune d hdc] at hd
      exact h.scheduler d e hd
  · by_cases hdc : d = c
    · by_cases hec : e = c
      · rw [hdc, hec]
      · rw [hdc, hcpuself, hx, hcpune e hec] at hde
        exact absurd hde.symm (hth e)
    · by_cases hec : e = c
      · rw [hec, hcpuself, hx, hcpune d hdc] at hde
        exact absurd hde (hth d)
      · rw [hcpune d hdc, hcpune e hec] at hde
        exact h.single d e hde
  · by_cases hac : a = (s.cpu c).thread
    · rw [hac]
      exact haway
    · have hath : a ≠ th := by
        have := ha c
        rw [hcpuself, hx] at this
        exact this.symm
      have hbefore := h.away a fun d hd => ?_
      · have hsame : t.top a = s.top a := by
          rw [htop, Function.update_of_ne hath, Function.update_of_ne hac]
        cases a with
        | scheduler d =>
          rw [State.Away, hsame]
          exact hbefore
        | proc q =>
          rw [State.Away, hsame, hstate q hath.symm]
          exact hbefore
      · by_cases hdc : d = c
        · exact hac (hdc ▸ hd.symm)
        · exact ha d (hcpune d hdc ▸ hd)
  · by_cases hdc : d = c
    · rw [hdc, hcpuself, hx] at hd
      exact hrunning q hd
    · rw [hcpune d hdc] at hd
      rw [hne d hdc] at hl
      rw [hother hd]
      exact h.running d q hd hl
  · by_cases hdc : d = c
    · rw [hdc, hself, hleaving] at hl
      cases hl
    · rw [hne d hdc] at hl
      obtain ⟨q, hq, hs⟩ := h.leaving d hl
      rw [hcpune d hdc]
      exact ⟨q, hq, by rwa [hother hq]⟩

/-- The scheduler switches to a process. -/
theorem Good.pick (h : Good ptable s) (hth : (s.cpu c).thread = .scheduler d)
    (hpc : (s.own c).pc = .running) (hheld : (s.own c).held = [ptable]) (hp : s.state p = .runnable)
    (ht : t = (((s.setTop (.scheduler d) { s.own c with held := [] }).setTop (.proc p)
      { s.top (.proc p) with held := [ptable] }).setProc p .running).setCpu c
        { s.cpu c with thread := .proc p }) : Good ptable t := by
  subst ht
  have hmem : ptable ∈ (s.own c).held := hheld ▸ List.mem_singleton_self ptable
  have hfree := h.away_of_ptable hmem (by rw [hpc]; rfl) (p := p) (by rw [hp]; rintro ⟨⟩)
  obtain ⟨-, haway⟩ := h.away (.proc p) hfree
  obtain ⟨hback, hsaves⟩ := haway (.inr (.inl hp))
  have hf := h.fits c
  have hone : (s.cpu c).ncli = 1 := by
    rw [hf.ncli, hheld, hpc]
    rfl
  have hoff : (s.cpu c).interruptible = false := by
    rw [← Bool.not_eq_true]
    intro hon
    have := (hf.off hon).1
    rw [hheld] at this
    cases this
  obtain ⟨hfits, hleaving, hpcs⟩ :
      Fits ptable { s.cpu c with thread := .proc p } { s.top (.proc p) with held := [ptable] } ∧ _ :=
    Fits.of_comesBack hback hsaves hone hoff
  refine h.switch hfree rfl rfl (by rw [hth]; rfl) rfl rfl hfits (h.held.same hheld.symm hpcs ?_)
    hleaving ?_ (by rintro e ⟨⟩) ?_ ?_
  · rw [hpc]
    exact fun l => ⟨by rintro ⟨⟩, by rintro ⟨⟩⟩
  · rw [hth, State.Away]
    have htop : (Function.update (Function.update s.top (.scheduler d) { s.own c with held := [] })
        (.proc p) { s.top (.proc p) with held := [ptable] }) (.scheduler d) =
          { s.own c with held := [] } := by
      rw [Function.update_of_ne (by rintro ⟨⟩), Function.update_self]
    exact ⟨(congrArg Frame.held htop).trans rfl, (congrArg Frame.pc htop).trans hpc⟩
  · rintro q ⟨⟩
    exact Function.update_self ..
  · intro q hq
    exact Function.update_of_ne (fun heq => hq (congrArg Thread.proc heq.symm)) ..

/-- `sched` switches to the scheduler. -/
theorem Good.swtch {v : Bool} (h : Good ptable s) (hpc : (s.own c).pc = .swtch v)
    (ht : t = ((s.setTop (s.cpu c).thread { s.own c with pc := .resume v, held := [] }).setTop
      (.scheduler c) { s.top (.scheduler c) with held := [ptable], before := (s.cpu c).intena }).setCpu
        c { s.cpu c with thread := .scheduler c }) : Good ptable t := by
  subst ht
  have hf := h.fits c
  have hheld : (s.own c).held = [ptable] := hf.placed.held_of_leaving (by rw [hpc]; rfl)
  have hoff : (s.cpu c).interruptible = false := hf.closed (by rw [hpc]; rfl)
  have hone : (s.cpu c).ncli = 1 := by
    rw [hf.ncli, hheld, hpc]
    rfl
  obtain ⟨p, hp, hstate⟩ := h.leaving c (by rw [hpc]; rfl)
  have hfree (d : κ) : (s.cpu d).thread ≠ .scheduler c := by
    intro hd
    rw [h.scheduler d c hd, hp] at hd
    cases hd
  obtain ⟨-, hrest⟩ := h.away (.scheduler c) hfree
  have hsaves : v = (s.own c).before := by
    have := hf.saves
    rwa [Frame.Saves, hpc] at this
  refine h.switch hfree rfl rfl rfl rfl rfl ?_ ?_ ?_ ?_ (by rintro e ⟨⟩; rfl) (by rintro q ⟨⟩)
    fun _ _ => rfl
  · refine ⟨?_, off_false hoff, ?_, List.nodup_singleton _, ?_, ?_, ?_⟩
    · dsimp only
      rw [hrest, hone]
      rfl
    · intro l e
      dsimp only
      rw [hrest]
      rintro ⟨⟩
    · simp only [Frame.Placed, hrest]
    · simp only [Frame.Saves, hrest]
    · exact fun _ _ => rfl
  · refine h.held.same hheld.symm ?_ ?_
    · dsimp only
      rw [hrest]
      exact fun l => ⟨by rintro ⟨⟩, by rintro ⟨⟩⟩
    · rw [hpc]
      exact fun l => ⟨by rintro ⟨⟩, by rintro ⟨⟩⟩
  · dsimp only
    rw [hrest]
    rfl
  · rw [hp]
    have htop : (Function.update (Function.update s.top (.proc p)
        { s.own c with pc := .resume v, held := [] }) (.scheduler c)
          { s.top (.scheduler c) with held := [ptable], before := (s.cpu c).intena }) (.proc p) =
            { s.own c with pc := .resume v, held := [] } := by
      rw [Function.update_of_ne (by rintro ⟨⟩), Function.update_self]
    rw [State.Away, State.setCpu, State.setTop, State.setTop]
    dsimp only
    rw [htop]
    exact ⟨rfl, fun _ => ⟨rfl, hsaves⟩⟩

/-! ### Steps -/

/-- A thread outside of the lock functions is in none of them. -/
theorem ne_of_running (hpc : f.pc = .running) (l : Λ) : f.pc ≠ .record l ∧ f.pc ≠ .unlock l := by
  rw [hpc]
  exact ⟨by rintro ⟨⟩, by rintro ⟨⟩⟩

theorem Good.acquire (h : Good ptable s) (hl : l ∉ (s.own c).held) (hpc : (s.own c).pc = .running)
    (ht : t = s.setTop (s.cpu c).thread ⟨.cli l (s.cpu c).interruptible, (s.own c).held, b⟩)
    (hb : (s.own c).held = [] ∧ b = (s.cpu c).interruptible ∨
      (s.own c).held ≠ [] ∧ b = (s.own c).before) : Good ptable t := by
  subst ht
  have hf := h.fits c
  have hncli : (s.cpu c).ncli = (s.own c).held.length := by
    rw [hf.ncli, hpc]
    simp [Pc.extra]
  refine h.stay (c := c) (fun _ _ => rfl) rfl rfl rfl h.below ?_ (h.held.same rfl ?_
    (ne_of_running hpc)) ?_
  · refine ⟨?_, fun hx => ⟨(hf.off hx).1, rfl⟩, ?_, hf.nodup, hl, fun hheld => ?_, fun hpos _ => ?_⟩
    · rw [State.setTop, hncli]
      simp [Pc.extra]
    · rintro _ _ ⟨⟩
      rfl
    · rcases hb with ⟨-, hb⟩ | ⟨hne, -⟩
      · exact hb.symm
      · exact absurd hheld hne
    · rcases hb with ⟨hheld, -⟩ | ⟨-, hb⟩
      · have hpos : 0 < (s.cpu c).ncli := hpos
        rw [hncli, hheld] at hpos
        exact absurd hpos (lt_irrefl 0)
      · rw [hb]
        exact hf.intena hpos (by rw [hpc]; rfl)
  · exact fun l => ⟨by rintro ⟨⟩, by rintro ⟨⟩⟩
  · rw [hpc]
    rfl

theorem Good.release (h : Good ptable s) (hl : l ∈ (s.own c).held) (hpc : (s.own c).pc = .running)
    (ht : t = s.setTop (s.cpu c).thread { s.own c with pc := .locked .release l }) :
    Good ptable t := by
  subst ht
  have hf := h.fits c
  refine h.stay (c := c) (fun _ _ => rfl) rfl rfl rfl h.below ?_ (h.held.same rfl ?_
    (ne_of_running hpc)) ?_
  · refine ⟨?_, fun hx => ?_, by rintro _ _ ⟨⟩, hf.nodup, hl, trivial, fun hpos _ => ?_⟩
    · rw [State.setTop, hf.ncli, hpc]
      rfl
    · rw [(hf.off hx).1] at hl
      exact absurd hl List.not_mem_nil
    · exact hf.intena hpos (by rw [hpc]; rfl)
  · exact fun l => ⟨by rintro ⟨⟩, by rintro ⟨⟩⟩
  · rw [hpc]
    rfl

theorem Good.sti (h : Good ptable s) (hheld : (s.own c).held = []) (hpc : (s.own c).pc = .running)
    (ht : t = s.setCpu c { s.cpu c with interruptible := true }) : Good ptable t := by
  subst ht
  have hf := h.fits c
  refine h.stay (c := c) (g := s.own c) (fun d hd => s.setCpu_of_ne hd _) (by rw [State.setCpu_self])
    (Function.update_eq_self ..).symm rfl h.below ?_ (by rw [Function.update_eq_self]; exact h.held) rfl
  · rw [State.setCpu_self]
    refine ⟨hf.ncli, fun _ => ⟨hheld, by rw [hpc]; rfl⟩, fun l e he => ?_, hf.nodup, hf.placed,
      hf.saves, hf.intena⟩
    rw [hpc] at he
    cases he

theorem Good.interrupt (h : Good ptable s) (hx : (s.cpu c).interruptible = true)
    (ht : t = (((s.setBelow (s.cpu c).thread (s.own c :: s.below (s.cpu c).thread)).setTop
      (s.cpu c).thread ⟨.running, [], false⟩).setCpu c { s.cpu c with interruptible := false })) :
    Good ptable t := by
  subst ht
  have hf := h.fits c
  have hint := hf.interrupted hx
  refine h.stay (c := c) (g := ⟨.running, [], false⟩) (fun d hd => State.setCpu_of_ne _ hd _)
    (by rw [State.setCpu_self]) rfl rfl (fun th f hmem => ?_) ?_ (h.held.same hint.held.symm ?_
      hint.not_has) ?_
  · have hmem : f ∈ Function.update s.below (s.cpu c).thread
        (s.own c :: s.below (s.cpu c).thread) th := hmem
    by_cases hth : th = (s.cpu c).thread
    · rw [hth, Function.update_self] at hmem
      rcases List.mem_cons.1 hmem with rfl | hmem
      · exact hint
      · exact h.below _ f hmem
    · rw [Function.update_of_ne hth] at hmem
      exact h.below th f hmem
  · rw [State.setCpu_self]
    have hn : (s.cpu c).ncli = 0 := by
      have hzero : Fits ptable { s.cpu c with ncli := 0 } (s.own c) := hint.fits rfl hx
      rw [hf.ncli, ← hzero.ncli]
    refine ⟨hn, ?_, ?_, List.nodup_nil, trivial, trivial, fun hpos => ?_⟩
    · rintro ⟨⟩
    · rintro _ _ ⟨⟩
    · have hpos : 0 < (s.cpu c).ncli := hpos
      rw [hn] at hpos
      exact absurd hpos (lt_irrefl 0)
  · exact fun l => ⟨by rintro ⟨⟩, by rintro ⟨⟩⟩
  · rw [hint.leaving]
    rfl

theorem Good.iret {fs : List (Frame Λ)} (h : Good ptable s) (hheld : (s.own c).held = [])
    (hpc : (s.own c).pc = .running) (hbelow : s.below (s.cpu c).thread = f :: fs)
    (ht : t = (((s.setBelow (s.cpu c).thread fs).setTop (s.cpu c).thread f).setCpu c
      { s.cpu c with interruptible := true })) : Good ptable t := by
  subst ht
  have hf := h.fits c
  have hint := h.below (s.cpu c).thread f (hbelow ▸ List.mem_cons_self)
  have hn : (s.cpu c).ncli = 0 := by
    rw [hf.ncli, hheld, hpc]
    rfl
  refine h.stay (c := c) (g := f) (fun d hd => State.setCpu_of_ne _ hd _)
    (by rw [State.setCpu_self]) rfl rfl (fun th g hmem => ?_) ?_ (h.held.same ?_ hint.not_has
      (ne_of_running hpc)) ?_
  · have hmem : g ∈ Function.update s.below (s.cpu c).thread fs th := hmem
    by_cases hth : th = (s.cpu c).thread
    · rw [hth, Function.update_self] at hmem
      exact h.below _ g (hbelow ▸ List.mem_cons_of_mem f hmem)
    · rw [Function.update_of_ne hth] at hmem
      exact h.below th g hmem
  · rw [State.setCpu_self]
    exact hint.fits hn rfl
  · rw [hint.held, hheld]
  · rw [hint.leaving, hpc]
    rfl

/-- Another process gets a state. -/
theorem Good.give {st : ProcState} (h : Good ptable s) (hg : MaySet ptable (s.own c).held (s.state p) st)
    (hpc : (s.own c).pc = .running) (ht : t = if st = .embryo then
      ((s.setProc p st).setTop (.proc p) newThread).setBelow (.proc p) [] else s.setProc p st) :
    Good ptable t := by
  have haway (hmem : ptable ∈ (s.own c).held) (hp : s.state p ≠ .running) :
      ∀ d, (s.cpu d).thread ≠ .proc p := h.away_of_ptable hmem (by rw [hpc]; rfl) hp
  unfold MaySet at hg
  split at hg
  next hold =>
    rw [if_pos rfl] at ht
    subst ht
    refine h.setState (haway hg (by rw [hold]; rintro ⟨⟩)) (.inr rfl)
      (.inr (.inl (Function.update_self ..))) rfl rfl rfl fun th f hf => ?_
    -- `allocproc` leaves no interrupted part of a thread behind.
    have hf : f ∈ Function.update s.below (.proc p) [] th := hf
    by_cases hth : th = .proc p
    · rw [hth, Function.update_self] at hf
      cases hf
    · rw [Function.update_of_ne hth] at hf
      exact h.below th f hf
  next hold =>
    rw [if_neg (by rintro ⟨⟩)] at ht
    subst ht
    exact h.setState (haway hg (by rw [hold]; rintro ⟨⟩)) (.inl rfl)
      (.inr (.inr ⟨rfl, .inl hold, rfl⟩)) rfl rfl rfl h.below
  next hold =>
    rw [if_neg (by rintro ⟨⟩)] at ht
    subst ht
    exact h.setState (haway hg (by rw [hold]; rintro ⟨⟩)) (.inl rfl)
      (.inr (.inr ⟨rfl, .inr (.inr hold), rfl⟩)) rfl rfl rfl h.below
  next hold =>
    rw [if_neg (by rintro ⟨⟩)] at ht
    subst ht
    exact h.setState (haway hg (by rw [hold]; rintro ⟨⟩)) (.inl rfl) (.inl rfl) rfl rfl rfl
      h.below
  next hold =>
    rw [if_neg (by rintro ⟨⟩)] at ht
    subst ht
    refine h.setState (fun d hd => ?_) (.inl rfl) (.inl rfl) rfl rfl rfl h.below
    cases hl : (s.own d).pc.leaving with
    | false =>
      have := (h.running d p hd hl).symm.trans hold
      cases this
    | true =>
      obtain ⟨q, hq, hstate⟩ := h.leaving d hl
      have hqp : q = p := Thread.proc.inj (hq.symm.trans hd)
      rw [hqp, hold] at hstate
      rcases hstate with hstate | hstate | hstate <;> cases hstate
  next => exact hg.elim

variable [DecidableEq Λ]

/-- The next access of a CPU does not panic. -/
theorem Good.next (h : Good ptable s) (c : κ) :
    (∃ t, step ptable s (.next c) = .ok t ∧ Good ptable t) ∨
      step ptable s (.next c) = .error .disabled := by
  have hrunning (hpc : (s.own c).pc = .tests) : s.isRunning (s.cpu c).thread = false := by
    obtain ⟨p, hp, hstate⟩ := h.leaving c (by rw [hpc]; rfl)
    rw [hp, State.isRunning, decide_eq_false_iff_not]
    rintro hrun
    rw [hrun] at hstate
    rcases hstate with hstate | hstate | hstate <;> cases hstate
  have hgo (hne : (s.own c).pc ≠ .running) (hswtch : ∀ v, (s.own c).pc ≠ .swtch v) :
      ∃ t, step ptable s (.next c) = .ok t ∧ Good ptable t := by
    obtain ⟨⟨x, f, lk⟩, hok, hr⟩ := access_spec (h.fits c) h.held rfl hrunning hne hswtch
    refine ⟨{ (s.setTop (s.cpu c).thread f).setCpu c x with lock := lk }, ?_, ?_⟩
    · rw [step]
      split
      next v hv => exact absurd hv (hswtch v)
      next =>
        rw [hok]
        rfl
    · refine h.stay (c := c) (g := f) (fun d hd => State.setCpu_of_ne _ hd _) ?_ rfl rfl h.below ?_
        hr.held hr.leaving
      · exact (congrArg Cpu.thread (State.setCpu_self _ c x)).trans hr.thread
      · have hcpu : ((s.setTop (s.cpu c).thread f).setCpu c x).cpu c = x := State.setCpu_self _ c x
        dsimp only
        rw [hcpu]
        exact hr.fits
  cases hpc : (s.own c).pc with
  | running =>
    right
    rw [step]
    simp only [hpc, access]
    rfl
  | swtch v =>
    left
    rw [step]
    simp only [hpc]
    exact ⟨_, rfl, h.swtch hpc rfl⟩
  | _ =>
    left
    refine hgo ?_ ?_
    · rw [hpc]
      rintro ⟨⟩
    · rw [hpc]
      rintro _ ⟨⟩

/-- A step that the callers may take keeps the invariant and does not panic. -/
theorem Good.step_spec {r : Except Stop (State κ π Λ)} (h : Good ptable s) (a : Act κ π Λ)
    (hg : Disciplined ptable s a) (hr : step ptable s a = r) :
    (∃ t, r = .ok t ∧ Good ptable t) ∨ r = .error .disabled := by
  cases a with
  | next c => exact hr ▸ h.next c
  | acquire c l =>
    rw [step] at hr
    split at hr
    next hpc =>
      refine .inl ⟨_, hr.symm, h.acquire hg hpc rfl ?_⟩
      by_cases hheld : (s.own c).held = []
      · exact .inl ⟨hheld, if_pos hheld⟩
      · exact .inr ⟨hheld, if_neg hheld⟩
    next => exact .inr hr.symm
  | release c l =>
    rw [step] at hr
    split at hr
    next hpc => exact .inl ⟨_, hr.symm, h.release hg hpc rfl⟩
    next => exact .inr hr.symm
  | sched c st =>
    rw [step] at hr
    split at hr
    next p hpc hth => exact .inl ⟨_, hr.symm, h.sched hth hpc hg.1 hg.2⟩
    next => exact .inr hr.symm
  | pick c p =>
    rw [step] at hr
    split at hr
    next d hpc hth =>
      split_ifs at hr with hp
      · exact .inl ⟨_, hr.symm, h.pick hth hpc hg.1 hp rfl⟩
      · exact .inr hr.symm
    next => exact .inr hr.symm
  | setState c p st =>
    rw [step] at hr
    split at hr
    next hpc => exact .inl ⟨_, hr.symm, h.give hg hpc rfl⟩
    next => exact .inr hr.symm
  | sti c =>
    rw [step] at hr
    split at hr
    next d hpc hth => exact .inl ⟨_, hr.symm, h.sti hg.1 hpc rfl⟩
    next => exact .inr hr.symm
  | interrupt c =>
    rw [step] at hr
    dsimp only at hr
    split_ifs at hr with hx
    · exact .inl ⟨_, hr.symm, h.interrupt hx rfl⟩
    · exact .inr hr.symm
  | iret c =>
    rw [step] at hr
    dsimp only at hr
    split at hr
    next f fs hpc hbelow => exact .inl ⟨_, hr.symm, h.iret hg hpc hbelow rfl⟩
    next => exact .inr hr.symm

/-! ### Runs -/

omit [DecidableEq κ] [DecidableEq π] [DecidableEq Λ] in
theorem Start.good (h : Start s) : Good ptable s := by
  have hown (c : κ) : (s.own c).pc = .running ∧ (s.own c).held = [] := by
    rw [State.own, h.thread]
    exact h.scheduler c
  have hnone (c : κ) (l : Λ) : ¬ (s.own c).Has l := by
    rw [Frame.Has, (hown c).1, (hown c).2]
    rintro (h | h | h) <;> cases h
  refine ⟨fun c => ?_, ⟨fun c l hl => absurd hl (hnone c l), fun l hl => ?_,
    fun c d l hl => absurd hl (hnone c l), fun c l => ?_⟩, fun c d hd => ?_, fun c d hcd => ?_,
    fun th f hf => ?_, fun th hth => ?_, fun c p hp => ?_, fun c hl => ?_⟩
  · obtain ⟨hpc, hheld⟩ := hown c
    refine ⟨?_, fun _ => ⟨hheld, by rw [hpc]; rfl⟩, fun l e he => ?_, ?_, ?_, ?_, fun hpos => ?_⟩
    · rw [h.ncli, hheld, hpc]
      rfl
    · rw [hpc] at he
      cases he
    · rw [hheld]
      exact List.nodup_nil
    · simp only [Frame.Placed, hpc]
    · simp only [Frame.Saves, hpc]
    · rw [h.ncli] at hpos
      exact absurd hpos (lt_irrefl 0)
  · rw [h.lock] at hl
    cases hl
  · rw [h.lock, (hown c).2]
    simp
  · rw [h.thread] at hd
    exact Thread.scheduler.inj hd
  · rw [h.thread, h.thread] at hcd
    exact Thread.scheduler.inj hcd
  · rw [h.below] at hf
    cases hf
  · cases th with
    | scheduler d => exact absurd (h.thread d) (hth d)
    | proc p =>
      rw [State.Away, h.proc]
      exact ⟨rfl, fun _ => ⟨rfl, trivial⟩⟩
  · rw [h.thread] at hp
    cases hp
  · rw [(hown c).1] at hl
    cases hl

theorem good_of_reach (hs : Reach (step ptable) (Disciplined ptable) Start s) : Good ptable s := by
  refine hs.invariant (fun s h => h.good) fun s a t h hg ht => ?_
  rcases h.step_spec a hg ht with ⟨u, hu, hgood⟩ | hdis
  · cases hu
    exact hgood
  · cases hdis

/-- A lock is held by one CPU at most, with its interrupts off and its record in the lock. A kernel
thread is on one CPU at most. Nothing that the callers may do panics. -/
theorem spinlocks_safe (hs : Reach (step ptable) (Disciplined ptable) Start s) :
    (∀ c d l, l ∈ (s.own c).held → l ∈ (s.own d).held → c = d) ∧
      (∀ c l, l ∈ (s.own c).held → (s.cpu c).interruptible = false ∧ s.lock l = ⟨true, some c⟩) ∧
      (∀ c d, (s.cpu c).thread = (s.cpu d).thread → c = d) ∧
      ∀ a m, Disciplined ptable s a → step ptable s a ≠ .error (.panic m) := by
  have h := good_of_reach hs
  refine ⟨fun c d l hc hd => h.held.eq c d l (.inl hc) (.inl hd), fun c l hl => ⟨?_, ?_⟩, h.single,
    fun a m hg hpanic => ?_⟩
  · rw [← Bool.not_eq_true]
    intro hx
    rw [((h.fits c).off hx).1] at hl
    cases hl
  · rw [← h.held.locked c l (.inl hl), ← (h.held.cpu c l).2 hl]
  · rcases h.step_spec a hg hpanic with ⟨t, ht, -⟩ | hdis
    · cases ht
    · cases hdis

/-- Two CPUs, one process to run, and besides `ptable.lock` one other lock. -/
def booted : State (Fin 2) (Fin 1) (Fin 2) where
  cpu c := ⟨0, false, false, .scheduler c⟩
  lock _ := ⟨false, none⟩
  state _ := .runnable
  top
    | .scheduler _ => ⟨.running, [], false⟩
    | .proc _ => newThread
  below _ := []

theorem booted_reach : Reach (step (0 : Fin 2)) (Disciplined 0) Start booted :=
  .start ⟨fun _ => rfl, fun _ => rfl, fun _ => rfl, fun _ => .inr rfl, fun _ => ⟨rfl, rfl⟩,
    fun _ => rfl, fun _ => rfl⟩

/-- `acquire` of a lock that is free, and `release` up to its `popcli`. -/
def takes (c l : Fin 2) : List (Act (Fin 2) (Fin 1) (Fin 2)) :=
  .acquire c l :: List.replicate 5 (.next c)

def gives (c l : Fin 2) : List (Act (Fin 2) (Fin 1) (Fin 2)) :=
  .release c l :: List.replicate 4 (.next c)

/-- CPU 0 has `ptable.lock`, and CPU 1 spins. -/
theorem spinlocks_safe_spinning : ∃ s : State (Fin 2) (Fin 1) (Fin 2), Reach (step 0) (Disciplined 0) Start s ∧
    (s.own 0).held = [0] ∧ (∀ c d l, l ∈ (s.own c).held → l ∈ (s.own d).held → c = d) ∧
      (∀ c l, l ∈ (s.own c).held → (s.cpu c).interruptible = false ∧ s.lock l = ⟨true, some c⟩) ∧
      (∀ c d, (s.cpu c).thread = (s.cpu d).thread → c = d) ∧
      ∀ a m, Disciplined 0 s a → step 0 s a ≠ .error (.panic m) := by
  obtain ⟨s, hs, ht⟩ := booted_reach.of_endsIn
    (fun s => decide ((s.own 0).held = [0]))
    (.sti 0 :: .sti 1 :: takes 0 0 ++ .acquire 1 0 :: List.replicate 9 (.next 1)) (by decide +kernel)
  exact ⟨s, hs, of_decide_eq_true ht, spinlocks_safe hs⟩

end Xv6Container.Locks.Spin
