import Xv6Container.Containers.Slots
import Xv6Container.Containers.Schedulable

/-! Parents and children. Every process that is alive or a zombie has a living parent, except
the first one, and a parent that sleeps in `wait` has no zombie child: `exit` wakes it before
it turns the child into a zombie, and wakes the first process for the zombies it hands over.
`wait` is the only way out of the table for a zombie. -/

namespace Xv6Container.Containers

open Lib

variable {s t u : Sys} {a : Act} {p q np : Slot} {e : Env}

def Sys.parent (s : Sys) (p : Slot) : Option Slot := (s.core p).parent
def Sys.chan (s : Sys) (p : Slot) : Option Chan := (s.core p).chan

/-- A process that has been created and not yet reaped. -/
def ProcState.created : ProcState → Prop
  | .unused | .embryo => False
  | _ => True

/-- `p` sleeps in `wait`. -/
def Sys.Waits (s : Sys) (p : Slot) : Prop := s.pc p = .waiting ∧ s.state p = .sleeping

/-- The process tree. -/
structure Parents (s : Sys) : Prop where
  holders : Holders s
  init : (s.state s.t.initproc).live ∧ s.parent s.t.initproc = none ∧
    ∀ b, s.pc s.t.initproc ≠ .exiting b
  parent : ∀ q, q ≠ s.t.initproc → (s.state q).created → ∃ r, s.parent q = some r ∧ (s.state r).live
  other : ∀ q, s.parent q ≠ some q
  named : ∀ p k np, s.stage p = .named k np → s.parent np = some p
  waits : ∀ p, s.Waits p → s.chan p = some (.proc p) ∧
    ∀ q, s.parent q = some p → s.state q ≠ .zombie

theorem Moves.created {x y : ProcState} (h : Moves x y) : x.created ↔ y.created := by
  rcases h with rfl | ⟨rfl, rfl | rfl⟩ | ⟨rfl, rfl⟩ <;> simp [ProcState.created]

theorem ProcState.live.created {x : ProcState} (h : x.live) : x.created := by
  cases x <;> trivial

/-! ### Falling asleep and exiting -/

/-- A state in which a process stays until another one acts. -/
def ProcState.resting (x : ProcState) : Prop := x = .sleeping ∨ x = .zombie

theorem Moves.eq_of_resting {x y : ProcState} (h : Moves x y) (hy : y.resting) : x = y := by
  rcases h with h | ⟨-, rfl | rfl⟩ | ⟨-, rfl⟩
  · exact h
  all_goals simp [ProcState.resting] at hy

theorem state_of_update {x : ProcState} {f g : Slot → Proc} {v : Proc} (hq : (g q).state = x)
    (hg : g = Function.update f np v) (hv : ¬ v.state.resting ∨ v.state = (f np).state)
    (hx : x.resting) : (f q).state = x := by
  rw [hg, Function.update_apply] at hq
  split_ifs at hq with h
  · rw [h]
    obtain hv | hv := hv
    · rw [hq] at hv
      exact absurd hx hv
    · rw [← hv, hq]
  · exact hq

theorem setKstack_rests {x : ProcState} (hx : x.resting) {y z : Tables} {page : Option Page}
    {b : Bool} (h : y.setKstack np page = (b, z)) (hq : (z.proc q).state = x) :
    (y.proc q).state = x := by
  cases page with
  | none =>
    obtain ⟨-, rfl⟩ := Prod.mk.inj h
    exact state_of_update hq rfl (.inl (by simp [ProcState.resting])) hx
  | some m =>
    obtain ⟨-, rfl⟩ := Prod.mk.inj h
    exact state_of_update hq rfl (.inr rfl) hx

theorem insert_proc {x y : Tables} {k : Creator} {b : Bool} (h : k.insert x p np = .ok (b, y)) :
    y.proc = x.proc := by
  have hinsert : ∀ c, x.insertProcess c np = .ok (b, y) → y.proc = x.proc := by
    intro c hc
    obtain ⟨-, rfl⟩ | ⟨d, i, -, -, -, rfl⟩ := Tables.insertProcess_ok hc
    · rfl
    · rfl
  cases k with
  | join c pp => exact hinsert c h
  | fork =>
    simp only [Creator.insert, Tables.forkInsert] at h
    split_ifs at h
    · exact hinsert _ h
    · cases h
      rfl

/-- In its sections a process falls asleep only in `wait` and becomes a zombie only in
`exit`. -/
theorem section_rests {x : ProcState} (hx : x.resting) (h : sectionStep s p e = .ok t)
    (hq : t.state q = x) : s.state q = x ∨ q = p ∧
      (x = .sleeping ∧ s.pc p = .waiting ∧ s.t.waitScan p = .sleep ∨
        x = .zombie ∧ ∃ b, s.pc p = .exiting b) := by
  have hconst : ∀ {v : ProcState}, v = .unused ∨ v = .embryo ∨ v = .runnable → ¬ v.resting := by
    rintro v (rfl | rfl | rfl) <;> simp [ProcState.resting]
  unfold sectionStep at h
  split at h
  next => cases h
  next => cases h; exact .inl hq
  next =>
    split at h
    next => cases h
    next => cases h; exact .inl hq
    next y hy =>
      cases h
      obtain ⟨-, -, rfl⟩ := Tables.allocproc_some hy
      exact .inl (state_of_update hq rfl (.inl (hconst (by simp))) hx)
  next k np _ =>
    have hstack : ∀ b y, s.t.allocKstack np e.page = .ok (b, y) →
        (y.proc q).state = x → s.state q = x := by
      intro b y hy hyq
      unfold Tables.allocKstack at hy
      split_ifs at hy
      · exact setKstack_rests hx (Except.ok.inj hy) hyq
      · split at hy
        · cases hy
        next mem z hz =>
          obtain ⟨c, i, -, -, -, rfl⟩ := Tables.conalloc_ok hz
          have := setKstack_rests hx (Except.ok.inj hy) hyq
          exact this
    split at h
    next => cases h
    next y hy => cases h; exact .inl (hstack _ y hy hq)
    next y hy => split at h <;> cases h <;> exact .inl (hstack _ y hy hq)
  next => cases h; exact .inl hq
  next =>
    split_ifs at h
    · cases h; exact .inl hq
    · cases h; exact .inl (state_of_update hq rfl (.inl (hconst (by simp))) hx)
  next =>
    split at h
    next => cases h
    next y hy =>
      cases h
      have hsame : (y.proc q).state = x := state_of_update hq rfl (.inl (hconst (by simp))) hx
      rw [insert_proc hy] at hsame
      exact .inl hsame
    next y hy =>
      cases h
      have hsame : (y.proc q).state = x := hq
      rw [insert_proc hy] at hsame
      exact .inl hsame
  next => cases h; exact .inl (state_of_update hq rfl (.inr rfl) hx)
  next =>
    split at h
    · cases h; exact .inl (state_of_update hq rfl (.inl (hconst (by simp))) hx)
    · cases h; exact .inl (state_of_update hq rfl (.inl (hconst (by simp))) hx)
  next =>
    split at h
    next => cases h
    next y hy =>
      split_ifs at h
      cases h
      obtain rfl | ⟨c, i, -, -, rfl⟩ := Tables.removeProcess_ok hy
      · exact .inl hq
      · exact .inl hq
  next b hpc =>
    cases h
    by_cases hqp : q = p
    · rw [hqp] at hq ⊢
      have hzombie : ((s.t.exitLocked p).proc p).state = .zombie := by
        unfold Tables.exitLocked
        rw [Tables.setProc_self]
      exact .inr ⟨rfl, .inr ⟨hq.symm.trans hzombie, b, hpc⟩⟩
    · left
      obtain ⟨y, hcalm, hexit⟩ := Calm.exitLocked s.t p
      have hy : (y.proc q).state = x := by
        have hq' : ((s.t.exitLocked p).proc q).state = x := hq
        rwa [hexit, Tables.setProc_of_ne _ _ _ _ hqp] at hq'
      exact ((hcalm.state q).eq_of_resting (by rw [hy]; exact hx)).trans hy
  next hpc =>
    split at h
    next => cases h; exact .inl (state_of_update hq rfl (.inl (hconst (by simp))) hx)
    next => cases h; exact .inl hq
    next hscan =>
      cases h
      by_cases hqp : q = p
      · rw [hqp] at hq ⊢
        have hsleep : ((s.t.sleepOn p (.proc p)).proc p).state = .sleeping := by
          rw [Tables.sleepOn, Tables.setProc_self]
        exact .inr ⟨rfl, .inl ⟨hq.symm.trans hsleep, hpc, hscan⟩⟩
      · left
        have hq' : ((s.t.sleepOn p (.proc p)).proc q).state = x := hq
        rw [Tables.sleepOn, Tables.setProc_of_ne _ _ _ _ hqp] at hq'
        exact hq'
  next =>
    split at h
    next => cases h
    next y hy =>
      cases h
      obtain ⟨c, -, rfl⟩ := Tables.addContainer_ok hy
      exact .inl hq
  next => cases h; exact .inl hq

theorem Calm.rests {x y : Tables} (h : Calm x y) {v : ProcState} (hv : v.resting)
    (hq : (y.proc q).state = v) : (x.proc q).state = v :=
  ((h.state q).eq_of_resting (by rw [hq]; exact hv)).trans hq

/-- How a process comes to rest. -/
theorem step_rests {x : ProcState} (hx : x.resting) (ht : step s a = .ok t) (hq : t.state q = x) :
    s.state q = x ∨
      x = .sleeping ∧ (∃ e, a = .step q e ∧ s.pc q = .waiting ∧ s.t.waitScan q = .sleep) ∨
      x = .sleeping ∧ (∃ chan, a = .sleep q chan ∧ (s.pc q).maySleep) ∨
      x = .zombie ∧ ∃ e b, a = .step q e ∧ s.pc q = .exiting b := by
  cases a with
  | call p c =>
    left
    simp only [step] at ht
    split_ifs at ht
    cases c with
    | kill pid =>
      cases ht
      exact (Calm.kill s.t pid).rests hx hq
    | containerProcessNum c =>
      simp only [callStep] at ht
      split at ht
      · cases ht
      · cases ht
        exact hq
    | exit =>
      simp only [callStep] at ht
      split_ifs at ht
      cases ht
      exact hq
    | _ => cases ht; exact hq
  | step p e =>
    simp only [step] at ht
    split_ifs at ht
    obtain hs | ⟨rfl, ⟨hv, hw⟩ | ⟨hv, b, hpc⟩⟩ := section_rests hx ht hq
    · exact .inl hs
    · exact .inr (.inl ⟨hv, e, rfl, hw⟩)
    · exact .inr (.inr (.inr ⟨hv, e, b, rfl, hpc⟩))
  | yield p =>
    left
    simp only [step] at ht
    split_ifs at ht
    cases ht
    exact state_of_update hq rfl (.inl (by simp [ProcState.resting])) hx
  | sleep p chan =>
    simp only [step] at ht
    split_ifs at ht with hp
    cases ht
    have hq' : ((s.t.sleepOn p chan).proc q).state = x := hq
    by_cases hqp : q = p
    · rw [hqp] at hq' ⊢
      rw [Tables.sleepOn, Tables.setProc_self] at hq'
      exact .inr (.inr (.inl ⟨hq'.symm, chan, rfl, hp.2⟩))
    · rw [Tables.sleepOn, Tables.setProc_of_ne _ _ _ _ hqp] at hq'
      exact .inl hq'
  | wakeup chan =>
    cases ht
    exact .inl ((Calm.wakeup1 s.t chan).rests hx hq)
  | sched n =>
    simp only [step] at ht
    split at ht
    · cases ht
    next y u hy =>
      cases ht
      exact .inl ((Calm.schedStep hy).rests hx hq)

/-! ### Whom `exit` wakes -/

theorem wakeup1_state {x : Tables} {chan : Chan} (h : (x.proc q).state ≠ .sleeping) :
    ((x.wakeup1 chan).proc q).state ≠ .sleeping := by
  simp only [Tables.wakeup1]
  rw [if_neg fun hs => h hs.1]
  exact h

theorem wakeup1_self {x : Tables} {chan : Chan} (h : (x.proc q).chan = some chan) :
    ((x.wakeup1 chan).proc q).state ≠ .sleeping := by
  simp only [Tables.wakeup1]
  split_ifs with hs
  · rintro ⟨⟩
  · exact fun hsleep => hs ⟨hsleep, h⟩

theorem reparent_state (x : Tables) : ((x.reparent p).proc q).state = (x.proc q).state := by
  simp only [Tables.reparent]
  split_ifs <;> rfl

theorem reparent_chan (x : Tables) : ((x.reparent p).proc q).chan = (x.proc q).chan := by
  simp only [Tables.reparent]
  split_ifs <;> rfl

/-- The parent of a process that exits does not sleep on. -/
theorem exitLocked_parent {x : Tables} (hp : (x.proc p).parent = some q) (hqp : q ≠ p)
    (hq : (x.proc q).chan = some (.proc q)) : ((x.exitLocked p).proc q).state ≠ .sleeping := by
  have hwoken : (((x.wakeupParent p).reparent p).proc q).state ≠ .sleeping := by
    rw [reparent_state]
    simp only [Tables.wakeupParent, hp]
    exact wakeup1_self hq
  unfold Tables.exitLocked
  rw [Tables.setProc_of_ne _ _ _ _ hqp]
  split_ifs
  · exact wakeup1_state hwoken
  · exact hwoken

/-- The first process does not sleep on when it is handed a zombie. -/
theorem exitLocked_init {x : Tables} {c : Slot} (hc : (x.proc c).parent = some p)
    (hzombie : (x.proc c).state = .zombie) (hqp : x.initproc ≠ p)
    (hq : (x.proc x.initproc).chan = some (.proc x.initproc)) :
    ((x.exitLocked p).proc x.initproc).state ≠ .sleeping := by
  have hstill := Still.wakeupParent x p
  have hparent : ((x.wakeupParent p).proc c).parent = some p :=
    (congrArg Core.parent (hstill.core c)).trans hc
  have hstate : ((x.wakeupParent p).proc c).state = .zombie := by
    rw [(Calm.wakeupParent x p).state c |>.eq_of_not_live (by rw [hzombie]; exact id), hzombie]
  have hchild : (x.wakeupParent p).hasZombieChild p = true := by
    unfold Tables.hasZombieChild
    rw [Fin.isSome_find?_iff]
    exact ⟨c, by rw [hparent, hstate]; simp⟩
  have hchan : ((x.wakeupParent p).proc x.initproc).chan = some (.proc x.initproc) :=
    (congrArg Core.chan (hstill.core x.initproc)).trans hq
  unfold Tables.exitLocked
  rw [Tables.setProc_of_ne _ _ _ _ hqp, if_pos hchild]
  refine wakeup1_self ?_
  rw [reparent_chan]
  exact hchan

/-! ### What a step does to the tree -/

/-- A living process can only become a zombie. -/
theorem live_of_step (he : Effect s a t) (hh : Holders s) (hq : (s.state q).live) :
    (t.state q).live ∨ t.state q = .zombie := by
  have hupdate : ∀ (x : Slot) (v : ProcState), t.state = Function.update s.state x v →
      ¬ (s.state x).live → (t.state q).live := by
    intro x v hstate hx
    rw [hstate, Function.update_of_ne]
    · exact hq
    · rintro rfl
      exact hx hq
  have hfresh : ∀ {p' np b}, s.stage p' = b → b.held = some np → ¬ (s.state np).live := by
    intro p' np b hb hheld
    rw [hh.embryo p' np (by rw [hb]; exact hheld)]
    exact id
  cases he with
  | quiet _ _ hstate => exact .inl ((hstate q).live.mp hq)
  | leave p _ _ _ hleft hothers _ =>
    by_cases hqp : q = p
    · subst hqp
      obtain hl | hl := hleft <;> rw [hl] <;> exact .inl trivial
    · rw [hothers q hqp]
      exact .inl hq
  | alloc p np _ _ _ _ hunused _ _ _ hstate =>
    exact .inl (hupdate np _ hstate (by rw [hunused]; exact id))
  | release p np _ hst _ hstate => exact .inl (hupdate np _ hstate (hfresh hst rfl))
  | enterUnlisted p np _ _ _ _ hstate | enter p np k c i _ _ _ _ _ _ _ _ hstate
  | name p np k _ _ _ _ _ _ hstate | delist p pp _ _ _ _ _ _ _ hstate =>
    rw [hstate]
    exact .inl hq
  | publish p np k _ hst _ hstate => exact .inl (hupdate np _ hstate (hfresh hst rfl))
  | exit p _ _ _ _ _ hzombie hothers =>
    by_cases hqp : q = p
    · subst hqp
      exact .inr hzombie
    · exact .inl ((hothers q hqp).live.mp hq)
  | reap p x _ _ _ _ _ _ hzombie _ _ hstate =>
    exact .inl (hupdate x _ hstate (by rw [hzombie]; exact id))

/-- Where created processes come from. -/
theorem created_of_step (he : Effect s a t) (hq : (t.state q).created) :
    (s.state q).created ∨ ∃ p k, s.stage p = .named k q := by
  have hupdate : ∀ (x : Slot) (v : ProcState), t.state = Function.update s.state x v →
      ¬ v.created → (s.state q).created := by
    intro x v hstate hv
    rw [hstate, Function.update_apply] at hq
    split_ifs at hq
    · exact absurd hq hv
    · exact hq
  cases he with
  | quiet _ _ hstate => exact .inl ((hstate q).created.mpr hq)
  | leave p _ _ hrun hleft hothers _ =>
    by_cases hqp : q = p
    · rw [hqp, hrun]
      exact .inl trivial
    · rw [hothers q hqp] at hq
      exact .inl hq
  | alloc p np _ _ _ _ _ _ _ _ hstate => exact .inl (hupdate np _ hstate id)
  | release p np _ _ _ hstate => exact .inl (hupdate np _ hstate id)
  | enterUnlisted p np _ _ _ _ hstate | enter p np k c i _ _ _ _ _ _ _ _ hstate
  | name p np k _ _ _ _ _ _ hstate | delist p pp _ _ _ _ _ _ _ hstate =>
    rw [hstate] at hq
    exact .inl hq
  | publish p np k _ hst _ hstate =>
    by_cases hqn : q = np
    · subst hqn
      exact .inr ⟨p, k, hst⟩
    · rw [hstate, Function.update_of_ne hqn] at hq
      exact .inl hq
  | exit p _ hrun _ _ _ _ hothers =>
    by_cases hqp : q = p
    · rw [hqp, hrun]
      exact .inl trivial
    · exact .inl ((hothers q hqp).created.mpr hq)
  | reap p x _ _ _ _ _ _ _ _ _ hstate => exact .inl (hupdate x _ hstate id)

/-- How the parent of a slot changes. -/
inductive ParentMove (s : Sys) (a : Act) (t : Sys) (q : Slot) : Prop
  | same (parent : t.parent q = s.parent q)
  | fields (p : Slot) (k : Creator) (e : Env) (act : a = .step p e) (pc : s.pc p = .fields k q)
      (parent : t.parent q = some p)
  | exit (p : Slot) (e : Env) (b : Bool) (act : a = .step p e) (pc : s.pc p = .exiting b)
  | reap (p : Slot) (e : Env) (act : a = .step p e) (pc : s.pc p = .waiting)
      (reaped : s.t.waitScan p = .reaped q)

theorem parent_of_step (ht : step s a = .ok t) (q : Slot) : ParentMove s a t q := by
  have hupdate : ∀ (x : Slot) (v : Core), t.core = Function.update s.core x v →
      v.parent = (s.core x).parent → t.parent q = s.parent q := by
    intro x v hcore hv
    simp only [Sys.parent, hcore, Function.update_apply]
    split_ifs with hx
    · rw [hx, hv]
    · rfl
  cases step_move ht with
  | same hcore _ => exact .same (by rw [Sys.parent, hcore, Sys.parent])
  | kill p x pid _ _ hcore _ => exact .same (hupdate x _ hcore rfl)
  | sleep p chan _ _ hcore _ => exact .same (hupdate p _ hcore rfl)
  | kstack p np k e page _ _ hcore _ _ => exact .same (hupdate np _ hcore rfl)
  | abandon p np k e _ _ _ hcore _ _ => exact .same (hupdate np _ hcore rfl)
  | fields p np k e hact hpc hcore _ =>
    by_cases hq : q = np
    · subst hq
      refine .fields p k e hact hpc ?_
      rw [Sys.parent, hcore, Function.update_self]
    · refine .same ?_
      rw [Sys.parent, hcore, Function.update_of_ne hq, Sys.parent]
  | exit p e b hact hpc _ _ => exact .exit p e b hact hpc
  | reap p x e hact hpc hreaped hcore _ =>
    by_cases hq : q = x
    · subst hq
      exact .reap p e hact hpc hreaped
    · refine .same ?_
      rw [Sys.parent, hcore, Function.update_of_ne hq, Sys.parent]
  | reserve p e c _ _ _ hcore _ => exact .same (by rw [Sys.parent, hcore, Sys.parent])

theorem chan_of_step (ht : step s a = .ok t) (hq : s.state q ≠ .running) :
    t.chan q = s.chan q := by
  have hupdate : ∀ (x : Slot) (v : Core), t.core = Function.update s.core x v →
      (x = q → v.chan = (s.core x).chan) → t.chan q = s.chan q := by
    intro x v hcore hv
    simp only [Sys.chan, hcore, Function.update_apply]
    split_ifs with hx
    · rw [hv hx.symm, hx]
    · rfl
  cases step_move ht with
  | same hcore _ | reserve p e c _ _ _ hcore _ => rw [Sys.chan, hcore, Sys.chan]
  | sleep p chan hrun _ hcore _ =>
    refine hupdate p _ hcore fun hp => ?_
    rw [hp] at hrun
    exact absurd hrun hq
  | kill p x pid _ _ hcore _ => exact hupdate x _ hcore fun _ => rfl
  | kstack p np k e page _ _ hcore _ _ => exact hupdate np _ hcore fun _ => rfl
  | abandon p np k e _ _ _ hcore _ _ => exact hupdate np _ hcore fun _ => rfl
  | fields p np k e _ _ hcore _ => exact hupdate np _ hcore fun _ => rfl
  | exit p e b _ _ hcore _ =>
    simp only [Sys.chan, hcore q]
    split_ifs <;> rfl
  | reap p x e _ _ _ hcore _ => exact hupdate x _ hcore fun _ => rfl

/-- The first process does not get to `exit`. -/
theorem section_exiting {b : Bool} (h : sectionStep s p e = .ok t) (hq : t.pc p = .exiting b) :
    s.pc p = .exiting b ∨ p ≠ s.t.initproc := by
  have hpc : ∀ {f : Slot → Pc} {pc : Pc}, t.pc = Function.update f p pc →
      pc ≠ .exiting b → s.pc p = .exiting b ∨ p ≠ s.t.initproc := by
    intro f pc hf hne
    rw [hf, Function.update_self] at hq
    exact absurd hq hne
  unfold sectionStep at h
  split at h
  case h_1 => cases h
  case h_2 | h_5 | h_8 | h_11 | h_14 => cases h; exact hpc rfl nofun
  case h_6 => split_ifs at h <;> cases h <;> exact hpc rfl nofun
  case h_10 =>
    split at h
    · cases h
    · split_ifs at h with hp
      exact .inr hp
  case h_4 =>
    split at h
    · cases h
    · cases h; exact hpc rfl nofun
    · split at h <;> cases h <;> exact hpc rfl nofun
  case h_13 =>
    split at h
    · cases h
    · cases h; exact hpc rfl nofun
  case h_9 | h_12 => split at h <;> cases h <;> exact hpc rfl nofun
  case h_3 | h_7 =>
    split at h
    · cases h
    · cases h; exact hpc rfl nofun
    · cases h; exact hpc rfl nofun

theorem step_exiting {b : Bool} (ht : step s a = .ok t) (hq : t.pc q = .exiting b) :
    s.pc q = .exiting b ∨ q ≠ s.t.initproc := by
  by_cases hpc : t.pc q = s.pc q
  · rw [← hpc]
    exact .inl hq
  · obtain ⟨c, -, hc⟩ | ⟨e, rfl⟩ := step_pc ht hpc
    · cases c with
      | exit =>
        simp only [callStep] at hc
        split_ifs at hc with hinit
        exact .inr hinit
      | containerProcessNum c =>
        simp only [callStep] at hc
        split at hc
        · cases hc
        · cases hc
          simp [Sys.back] at hq
      | _ =>
        cases hc
        simp [Sys.back, Sys.goto] at hq
    · exact section_exiting (running_of_step ht).2 hq

/-- A slot gets its name in the section that copies the fields. -/
theorem fields_of_named {k : Creator} (he : Effect s a t) (hq : t.stage p = .named k np)
    (hst : t.stage p ≠ s.stage p) : s.pc p = .fields k np := by
  have hupdate : ∀ (x : Slot) (b : Stage), t.stage = Function.update s.stage x b →
      x = p ∧ b = .named k np := by
    intro x b hstage
    rw [hstage, Function.update_apply] at hq hst
    split_ifs at hq hst with hx
    · exact ⟨hx.symm, hq⟩
    · exact absurd rfl hst
  cases he with
  | quiet _ hstage _ | leave _ _ hstage _ _ _ _ | reap _ _ _ _ _ _ _ _ _ _ hstage _ =>
    rw [hstage] at hst
    exact absurd rfl hst
  | name x y k' _ _ _ hentered _ hstage _ =>
    obtain ⟨rfl, hb⟩ := hupdate _ _ hstage
    cases hb
    unfold Sys.stage at hentered
    cases hpc : s.pc x with
    | fields k₀ np₀ =>
      rw [hpc] at hentered
      cases hentered
      rfl
    | exiting j =>
      rw [hpc] at hentered
      cases j <;> cases hentered
    | _ =>
      rw [hpc] at hentered
      cases hentered
  | alloc _ _ _ _ _ _ _ _ _ hstage _ | release _ _ _ _ hstage _
  | enterUnlisted _ _ _ _ _ hstage _ | enter _ _ _ _ _ _ _ _ _ _ _ _ hstage _
  | publish _ _ _ _ _ hstage _ | delist _ _ _ _ _ _ _ _ hstage _
  | exit _ _ _ _ _ hstage _ _ => exact nomatch (hupdate _ _ hstage).2

theorem waitScan_no_zombie {x : Tables} (h : x.waitScan p = .sleep)
    (hq : (x.proc q).parent = some p) : (x.proc q).state ≠ .zombie := by
  unfold Tables.waitScan at h
  split at h
  · cases h
  next hnone =>
    intro hz
    have := Fin.find?_eq_none_iff.mp hnone q
    simp [hq, hz] at this

/-! ### The tree is kept -/

namespace Parents

theorem not_created_held (h : Parents s) (hq : (s.stage p).held = some np) :
    ¬ (s.state np).created := by
  rw [h.holders.embryo p np hq]
  exact id

/-- The parts of the tree after `exit`. -/
theorem exit (h : Parents s) {b : Bool} (hpc : s.pc p = .exiting b)
    (ht : step s (.step p e) = .ok t) : Parents t := by
  have heq := exit_step hpc ht
  have hrun := (running_of_step ht).1
  have hpi : s.t.initproc ≠ p := by
    rintro rfl
    exact h.init.2.2 b hpc
  have hparent : ∀ q, t.parent q =
      if s.parent q = some p then some s.t.initproc else s.parent q := by
    intro q
    have hcore := s.t.exitLocked_core p q
    simp only [heq, Sys.parent]
    change ((s.t.exitLocked p).proc q).core.parent = _
    rw [hcore]
    simp only [Sys.core]
    exact apply_ite Core.parent ..
  have hstate : ∀ q, q ≠ p → Moves (s.state q) (t.state q) := by
    intro q hq
    obtain ⟨x, hcalm, hexit⟩ := Calm.exitLocked s.t p
    have := hcalm.state q
    simp only [heq, Sys.state]
    change Moves _ ((s.t.exitLocked p).proc q).state
    rw [hexit, Tables.setProc_of_ne _ _ _ _ hq]
    exact this
  have hrests : ∀ q, q ≠ p → (t.state q).resting → s.state q = t.state q :=
    fun q hq hx => (hstate q hq).eq_of_resting hx
  have hpcs : ∀ q, q ≠ p → t.pc q = s.pc q := fun q hq => section_pc (running_of_step ht).2 hq
  have hpp : t.pc p = .user := by
    rw [heq]
    exact Function.update_self ..
  have hinitproc := step_initproc ht
  have hinit : (t.state s.t.initproc).live := (hstate _ hpi).live.mp h.init.1
  constructor
  case holders => exact h.holders.step (step_effect ht)
  case init =>
    rw [hinitproc]
    refine ⟨hinit, ?_, fun b' => ?_⟩
    · rw [hparent, h.init.2.1]
      rfl
    · rw [hpcs _ hpi]
      exact h.init.2.2 b'
  case parent =>
    intro q hq hcreated
    rw [hinitproc] at hq
    have hold : (s.state q).created := by
      by_cases hqp : q = p
      · rw [hqp, hrun]
        trivial
      · exact (hstate q hqp).created.mpr hcreated
    obtain ⟨r, hr, hlive⟩ := h.parent q hq hold
    rw [hparent]
    split_ifs with hchild
    · exact ⟨_, rfl, hinit⟩
    · have hrp : r ≠ p := by
        rintro rfl
        exact hchild hr
      exact ⟨r, hr, (hstate r hrp).live.mp hlive⟩
  case other =>
    intro q hq
    rw [hparent] at hq
    split_ifs at hq with hchild
    · rw [← Option.some.inj hq, h.init.2.1] at hchild
      cases hchild
    · exact h.other q hq
  case named =>
    intro q k np hq
    have hqp : q ≠ p := by
      rintro rfl
      rw [Sys.stage, hpp] at hq
      cases hq
    rw [Sys.stage, hpcs q hqp] at hq
    rw [hparent, h.named q k np hq]
    exact if_neg fun heq => hqp (Option.some.inj heq)
  case waits =>
    rintro w ⟨hwpc, hw⟩
    have hwp : w ≠ p := by
      rintro rfl
      rw [hpp] at hwpc
      cases hwpc
    rw [hpcs w hwp] at hwpc
    have hold : s.state w = .sleeping := (hrests w hwp (.inl hw)).trans hw
    obtain ⟨hchan, hzombies⟩ := h.waits w ⟨hwpc, hold⟩
    refine ⟨(chan_of_step ht (by rw [hold]; rintro ⟨⟩)).trans hchan, fun q hq hzombie => ?_⟩
    have hasleep : ((s.t.exitLocked p).proc w).state = .sleeping := by
      rw [heq] at hw
      exact hw
    rw [hparent] at hq
    split_ifs at hq with hchild
    · -- a zombie that the first process has been handed
      obtain rfl := Option.some.inj hq
      have hqp : q ≠ p := by
        rintro rfl
        exact h.other q hchild
      have hold : s.state q = .zombie := (hrests q hqp (.inr hzombie)).trans hzombie
      exact exitLocked_init hchild hold hpi hchan hasleep
    · by_cases hqp : q = p
      · subst hqp
        exact exitLocked_parent hq hwp hchan hasleep
      · exact hzombies q hq ((hrests q hqp (.inr hzombie)).trans hzombie)

/-- A created process keeps its parent in a step that is not an `exit`. -/
theorem keeps_parent (h : Parents s) (hexit : ∀ p e b, a = .step p e → s.pc p ≠ .exiting b)
    (ht : Containers.step s a = .ok t) (hq : (s.state q).created) (hq' : (t.state q).created) :
    t.parent q = s.parent q := by
  cases parent_of_step ht q with
  | same hparent => exact hparent
  | fields p k e _ hpc _ =>
    exact absurd hq (h.not_created_held (p := p) (by rw [Sys.stage, hpc]; rfl))
  | exit p e b hact hpc => exact absurd hpc (hexit p e b hact)
  | reap p e hact hpc hreaped =>
    subst hact
    rw [reap_step hpc hreaped ht] at hq'
    simp [Sys.state, Sys.back, Tables.reap, ProcState.created] at hq'

/-- So does a process that its creator has named. -/
theorem named_keeps_parent (h : Parents s)
    (hexit : ∀ p e b, a = .step p e → s.pc p ≠ .exiting b) (ht : Containers.step s a = .ok t)
    {k : Creator} (hnamed : s.stage p = .named k q) : t.parent q = some p := by
  have hheld : (s.stage p).held = some q := by rw [hnamed]; rfl
  cases parent_of_step ht q with
  | same hparent => exact hparent.trans (h.named p k q hnamed)
  | fields p' k' e _ hpc hparent =>
    have := h.holders.unique p' p q (by rw [Sys.stage, hpc]; rfl) hheld
    subst this
    rw [Sys.stage, hpc] at hnamed
    cases hnamed
  | exit p' e b hact hpc => exact absurd hpc (hexit p' e b hact)
  | reap p' e _ hpc hreaped =>
    have hz := (Tables.waitScan_reaped hreaped).2
    have he := h.holders.embryo p q hheld
    rw [Sys.state, hz] at he
    cases he

/-- The parts of the tree after any other step. -/
theorem other_step (h : Parents s) (hexit : ∀ p e b, a = .step p e → s.pc p ≠ .exiting b)
    (ht : Containers.step s a = .ok t) : Parents t := by
  have he := step_effect ht
  have hh := h.holders.step he
  have hinitproc := step_initproc ht
  have hrests : ∀ q, t.state q = .zombie → s.state q = .zombie := by
    intro q hq
    obtain hs | ⟨hx, -⟩ | ⟨hx, -⟩ | ⟨-, e, b, hact, hpc⟩ := step_rests (.inr rfl) ht hq
    · exact hs
    · cases hx
    · cases hx
    · exact absurd hpc (hexit q e b hact)
  have hlive : ∀ q, (s.state q).live → (t.state q).live := by
    intro q hq
    obtain hl | hz := live_of_step he h.holders hq
    · exact hl
    · rw [hrests q hz] at hq
      exact absurd hq id
  have hkeep : ∀ q, (s.state q).created → (t.state q).created → t.parent q = s.parent q :=
    fun q hq hq' => h.keeps_parent hexit ht hq hq'
  constructor
  case holders => exact hh
  case init =>
    rw [hinitproc]
    refine ⟨hlive _ h.init.1, ?_, fun b hb => ?_⟩
    · rw [hkeep _ h.init.1.created (hlive _ h.init.1).created]
      exact h.init.2.1
    · obtain hold | hne := step_exiting ht hb
      · exact h.init.2.2 b hold
      · exact hne rfl
  case parent =>
    intro q hq hcreated
    rw [hinitproc] at hq
    obtain hold | ⟨p, k, hnamed⟩ := created_of_step he hcreated
    · obtain ⟨r, hr, hr'⟩ := h.parent q hq hold
      exact ⟨r, (hkeep q hold hcreated).trans hr, hlive r hr'⟩
    · have hp := h.holders.live p (by rw [hnamed]; rintro ⟨⟩)
      exact ⟨p, h.named_keeps_parent hexit ht hnamed, hlive p hp⟩
  case other =>
    intro q hq
    cases parent_of_step ht q with
    | same hparent => exact h.other q (hparent ▸ hq)
    | fields p k e _ hpc hparent =>
      rw [hparent] at hq
      obtain rfl := Option.some.inj hq
      have hheld : (s.stage p).held = some p := by
        rw [Sys.stage, hpc]
        rfl
      have hlive := h.holders.live p (by rw [Sys.stage, hpc]; rintro ⟨⟩)
      rw [h.holders.embryo p p hheld] at hlive
      exact hlive
    | exit p e b hact hpc => exact absurd hpc (hexit p e b hact)
    | reap p e hact hpc hreaped =>
      subst hact
      rw [reap_step hpc hreaped ht] at hq
      simp [Sys.parent, Sys.core, Proc.core, Sys.back, Tables.reap] at hq
  case named =>
    intro p k np hnamed
    by_cases hst : t.stage p = s.stage p
    · rw [hst] at hnamed
      exact h.named_keeps_parent hexit ht hnamed
    · obtain ⟨e, rfl⟩ := step_of_stage ht hst
      rw [fields_step (fields_of_named he hnamed hst) ht]
      simp [Sys.parent, Sys.core, Proc.core, Sys.goto, Tables.copyFields]
  case waits =>
    rintro w ⟨hwpc, hw⟩
    obtain hold | ⟨-, e, rfl, hpc, hscan⟩ | ⟨-, chan, rfl, hmay⟩ | ⟨hx, -⟩ :=
      step_rests (.inl rfl) ht hw
    · have hpc : t.pc w = s.pc w := by
        cases step_pcChange ht with
        | same hpc => rw [hpc]
        | moved p pc hrun heq _ =>
          rw [heq, Function.update_of_ne]
          rintro rfl
          rw [hold] at hrun
          cases hrun
      rw [hpc] at hwpc
      obtain ⟨hchan, hzombies⟩ := h.waits w ⟨hwpc, hold⟩
      refine ⟨(chan_of_step ht (by rw [hold]; rintro ⟨⟩)).trans hchan, fun q hq hzombie => ?_⟩
      have hz := hrests q hzombie
      rw [hkeep q (by rw [hz]; trivial) (by rw [hzombie]; trivial)] at hq
      exact hzombies q hq hz
    · have heq := wait_step hpc hscan ht
      refine ⟨?_, fun q hq hzombie => ?_⟩
      · rw [heq]
        simp [Sys.chan, Sys.core, Proc.core, Sys.goto, Sys.offCpu, Tables.sleepOn]
      · have hz := hrests q hzombie
        rw [hkeep q (by rw [hz]; trivial) (by rw [hzombie]; trivial)] at hq
        exact waitScan_no_zombie hscan hq hz
    · have hpc : t.pc w = s.pc w := by
        simp only [step] at ht
        split_ifs at ht
        cases ht
        rfl
      rw [← hpc, hwpc] at hmay
      cases hmay
    · cases hx

theorem step (h : Parents s) (ht : Containers.step s a = .ok t) : Parents t := by
  by_cases hexit : ∃ p e b, a = .step p e ∧ s.pc p = .exiting b
  · obtain ⟨p, e, b, rfl, hpc⟩ := hexit
    exact h.exit hpc ht
  · exact h.other_step (fun p e b hact hpc => hexit ⟨p, e, b, hact, hpc⟩) ht

end Parents

theorem Booted.parents (h : Booted s) : Parents s := by
  have hh := h.holders
  have hst := h.stage
  obtain ⟨-, -, hstate, -⟩ := h.pid
  obtain ⟨page, t, ht, rfl⟩ := h
  obtain ⟨t', ht', hinit, -, -, -, hproc, -⟩ := Tables.userinit_ok page
  cases Except.ok.inj (ht.symm.trans ht')
  have hparent : ∀ q, (boot t).parent q = none := by
    intro q
    simp only [Sys.parent, Sys.core, boot, hproc, Function.update_apply]
    split_ifs <;> rfl
  constructor
  case holders => exact hh
  case init =>
    change ((boot t).state t.initproc).live ∧ (boot t).parent t.initproc = none ∧ _
    rw [hinit]
    refine ⟨?_, hparent 0, fun b => by rintro ⟨⟩⟩
    rw [hstate]
    trivial
  case parent =>
    intro q hq hcreated
    change q ≠ t.initproc at hq
    rw [hinit] at hq
    rw [hstate, Function.update_of_ne hq] at hcreated
    exact absurd hcreated id
  case other =>
    intro q
    rw [hparent]
    rintro ⟨⟩
  case named =>
    intro p k np hp
    rw [hst] at hp
    cases hp
  case waits =>
    rintro p ⟨hp, -⟩
    cases hp

/-! ### Reaping -/

/-- No slot bears a pid that has been given out and cleared, and none will again. -/
def Retired (k : ℤ) (s : Sys) : Prop := k ≠ 0 ∧ k < s.t.nextpid ∧ ∀ q, s.pid q ≠ k

theorem Retired.step {k : ℤ} (h : Retired k s) (he : Effect s a t) : Retired k t := by
  obtain ⟨h0, hlt, hne⟩ := h
  have hsame : t.pid = s.pid → t.t.nextpid = s.t.nextpid → Retired k t := by
    intro hpid hnext
    refine ⟨h0, by rw [hnext]; exact hlt, fun q => ?_⟩
    rw [hpid]
    exact hne q
  cases he with
  | quiet names _ _ | leave _ names _ _ _ _ _ | release _ _ names _ _ _
  | enterUnlisted _ _ names _ _ _ _ | publish _ _ _ names _ _ _ | exit _ names _ _ _ _ _ _ =>
    exact hsame names.pid names.nextpid
  | enter _ _ _ _ _ _ hpid hnext _ _ _ _ _ _ => exact hsame hpid hnext
  | name _ _ _ _ hpid hnext _ _ _ _ => exact hsame hpid hnext
  | delist _ _ _ hpid hnext _ _ _ _ _ => exact hsame hpid hnext
  | alloc p np _ _ _ _ _ hpid hnext _ _ =>
    refine ⟨h0, by omega, fun q => ?_⟩
    rw [hpid, Function.update_apply]
    split_ifs
    · exact hlt.ne'
    · exact hne q
  | reap p x _ _ hnext _ _ _ _ hpid _ _ =>
    refine ⟨h0, by rw [hnext]; exact hlt, fun q => ?_⟩
    rw [hpid, Function.update_apply]
    split_ifs
    · exact h0.symm
    · exact hne q

/-- A zombie stays one until it is reaped. -/
theorem zombie_of_step (he : Effect s a t) (hh : Holders s) (hq : s.state q = .zombie) :
    t.state q = .zombie ∨ ∃ p e, a = .step p e ∧ s.pc p = .waiting ∧ s.t.waitScan p = .reaped q := by
  have hupdate : ∀ (x : Slot) (v : ProcState), t.state = Function.update s.state x v →
      s.state x ≠ .zombie → t.state q = .zombie := by
    intro x v hstate hx
    rw [hstate, Function.update_of_ne, hq]
    rintro rfl
    exact hx hq
  have hfresh : ∀ {p' np b}, s.stage p' = b → b.held = some np → s.state np ≠ .zombie := by
    intro p' np b hb hheld
    rw [hh.embryo p' np (by rw [hb]; exact hheld)]
    exact nofun
  cases he with
  | quiet _ _ hstate => exact .inl (((hstate q).eq_of_not_live (by rw [hq]; exact id)).trans hq)
  | leave p _ _ hrun _ hothers _ =>
    refine .inl ((hothers q ?_).trans hq)
    rintro rfl
    rw [hq] at hrun
    cases hrun
  | alloc p np _ _ _ _ hunused _ _ _ hstate =>
    exact .inl (hupdate np _ hstate (by rw [hunused]; exact nofun))
  | release p np _ hst _ hstate => exact .inl (hupdate np _ hstate (hfresh hst rfl))
  | publish p np k _ hst _ hstate => exact .inl (hupdate np _ hstate (hfresh hst rfl))
  | enterUnlisted p np _ _ _ _ hstate | enter p np k c i _ _ _ _ _ _ _ _ hstate
  | name p np k _ _ _ _ _ _ hstate | delist p pp _ _ _ _ _ _ _ hstate =>
    rw [hstate]
    exact .inl hq
  | exit p _ hrun _ _ _ _ hothers =>
    refine .inl (((hothers q ?_).eq_of_not_live (by rw [hq]; exact id)).trans hq)
    rintro rfl
    rw [hq] at hrun
    cases hrun
  | reap p x _ _ _ hact hpc hreaped _ _ _ hstate =>
    by_cases hqx : q = x
    · subst hqx
      obtain ⟨e, rfl⟩ := hact
      exact .inr ⟨p, e, rfl, hpc, hreaped⟩
    · rw [hstate, Function.update_of_ne hqx]
      exact .inl hq

/-- `q` is reaped in the step from `s` to `t`: its parent returns from `wait` with its pid. -/
structure Reaped (s : Sys) (a : Act) (t : Sys) (q : Slot) : Prop where
  byParent : ∃ p e, a = .step p e ∧ s.pc p = .waiting ∧ s.parent q = some p ∧
    t.pc p = .user ∧ t.ret p = s.pid q
  unused : t.state q = .unused
  once : ∀ u, Reach step always (· = t) u → ∀ x, u.pid x ≠ s.pid q

/-- The tree, as its processes see it. -/
structure TreeOk (s : Sys) : Prop where
  parent : ∀ q, q ≠ s.t.initproc → s.state q = .sleeping ∨ s.state q = .runnable ∨
    s.state q = .running ∨ s.state q = .zombie →
    ∃ r, s.parent q = some r ∧ s.state r ≠ .unused ∧ s.state r ≠ .zombie
  waits : ∀ p, s.Waits p → ∀ q, s.parent q = some p → s.state q ≠ .zombie
  reaped : ∀ a t q, step s a = .ok t → s.state q = .zombie → t.state q ≠ .zombie →
    Reaped s a t q

theorem reaped_of_step (hpids : Pids s) (hpc : s.pc p = .waiting)
    (hreaped : s.t.waitScan p = .reaped q) (ht : step s (.step p e) = .ok t) :
    Reaped s (.step p e) t q := by
  obtain ⟨hparent, hzombie⟩ := Tables.waitScan_reaped hreaped
  have heq := reap_step hpc hreaped ht
  have hpid : s.pid q ≠ 0 := by
    refine hpids.inUse q ?_
    rw [Sys.state, hzombie]
    rintro ⟨⟩
  have hretired : Retired (s.pid q) t := by
    refine ⟨hpid, ?_, fun x => ?_⟩
    · rw [heq]
      exact (hpids.tickets.range q).2
    · have hx : t.pid x = if x = q then 0 else s.pid x := by
        rw [heq]
        simp only [Sys.pid, Sys.back, Tables.reap, Tables.setProc_proc]
        split_ifs with hxq
        · rfl
        · rfl
      rw [hx]
      split_ifs with hxq
      · exact hpid.symm
      · intro hsame
        exact hxq (hpids.tickets.unique x q (by rw [hsame]; exact hpid) hsame)
  refine ⟨⟨p, e, rfl, hpc, hparent, ?_, ?_⟩, ?_, fun u hu => ?_⟩
  · rw [heq]
    exact Function.update_self ..
  · rw [heq]
    exact Function.update_self ..
  · rw [heq]
    simp [Sys.state, Sys.back, Tables.reap]
  · have hu' : Retired (s.pid q) u := hu.invariant (fun _ h => h ▸ hretired)
      fun _ _ _ h _ hstep => h.step (step_effect hstep)
    exact hu'.2.2

/-- In every run the process tree can be reaped. -/
theorem treeOk_of_reach (hs : Reach step always Booted s) : TreeOk s := by
  have h : Parents s := hs.invariant (fun _ => Booted.parents) fun _ _ _ h _ ht => h.step ht
  have hpids : Pids s := (hs.invariant (I := fun s => Holders s ∧ Pids s)
    (fun _ hb => ⟨hb.holders, hb.pids⟩)
    fun _ _ _ h _ ht => ⟨h.1.step (step_effect ht), h.2.step h.1 (step_effect ht)⟩).2
  refine ⟨fun q hq hstate => ?_, fun p hp => (h.waits p hp).2, fun a t q ht hq hq' => ?_⟩
  · have hcreated : (s.state q).created := by
      obtain hx | hx | hx | hx := hstate <;> rw [hx] <;> trivial
    obtain ⟨r, hr, hlive⟩ := h.parent q hq hcreated
    refine ⟨r, hr, ?_, ?_⟩
    · intro hx
      rw [hx] at hlive
      exact hlive
    · intro hx
      rw [hx] at hlive
      exact hlive
  · obtain hz | ⟨p, e, rfl, hpc, hreaped⟩ := zombie_of_step (step_effect ht) h.holders hq
    · exact absurd hz hq'
    · exact reaped_of_step hpids hpc hreaped ht

/-- The child of the first process has exited and is about to be reaped. -/
theorem treeOk_zombie : ∃ s, s.state 1 = .zombie ∧ TreeOk s := by
  have hboot : Reach step always Booted firstBoot := .start booted_firstBoot
  obtain ⟨s, hs, ht⟩ := hboot.of_endsIn (fun s => decide (s.state 1 = .zombie))
    (turns 2 ++ .call 0 .fork :: sections 0 6 ++ .call 0 .wait :: sections 0 1 ++ turns 1 ++
      .call 1 .exit :: sections 1 1) (by decide +kernel)
  exact ⟨s, of_decide_eq_true ht, treeOk_of_reach hs⟩

end Xv6Container.Containers
