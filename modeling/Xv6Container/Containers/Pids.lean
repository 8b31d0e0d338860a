import Xv6Container.Containers.Holders
import Xv6Container.Lib.Tickets

/-! Pids and calls in progress. A process that is inside a call is live, the pid that
`joinContainer` reads at its start is the caller's for the whole call, and no two slots
ever have the same pid, apart from the pid 0 of slots that are free. -/

namespace Xv6Container.Containers

open Lib

variable {s t : Sys} {a : Act}

def Creator.parentpid : Creator → Option ℤ
  | .fork => none
  | .join _ pp => some pp

/-- The local `parentpid` of a process inside `joinContainer`. -/
def Pc.parentpid : Pc → Option ℤ
  | .setAlloc _ pp | .delist pp => some pp
  | .alloc k | .kstack k _ | .resetAlloc k _ | .copy k _ | .list k _ | .fields k _
  | .publish k _ => k.parentpid
  | _ => none

/-- One process at most changes its place; a new `parentpid` is its own pid. -/
inductive PcChange (s t : Sys) : Prop
  | same (pc : t.pc = s.pc)
  | moved (p : Slot) (pc : Pc) (running : s.state p = .running)
      (eq : t.pc = Function.update s.pc p pc)
      (parentpid : pc.parentpid = none ∨ pc.parentpid = (s.pc p).parentpid ∨
        pc.parentpid = some (s.pid p))

theorem call_pcChange {p : Slot} {c : Call} (hrun : s.state p = .running)
    (h : callStep s p c = .ok t) : PcChange s t := by
  cases c with
  | fork => cases h; exact .moved p _ hrun rfl (.inl rfl)
  | join_container c => cases h; exact .moved p _ hrun rfl (.inr (.inr rfl))
  | leave_container => cases h; exact .moved p _ hrun rfl (.inr (.inr rfl))
  | create_container => cases h; exact .moved p _ hrun rfl (.inl rfl)
  | containerProcessNum c =>
    simp only [callStep] at h
    split at h
    · cases h
    · cases h; exact .moved p _ hrun rfl (.inl rfl)
  | exit =>
    simp only [callStep] at h
    split_ifs at h
    cases h
    exact .moved p _ hrun rfl (.inl rfl)
  | wait => cases h; exact .moved p _ hrun rfl (.inl rfl)
  | kill pid => cases h; exact .moved p _ hrun rfl (.inl rfl)
  | scheduler_log_on => cases h; exact .moved p _ hrun rfl (.inl rfl)

theorem section_pcChange {p : Slot} {e : Env} (hrun : s.state p = .running)
    (h : sectionStep s p e = .ok t) : PcChange s t := by
  -- a section goes on inside the same call or returns from it
  have hgo : ∀ pc u, pc.parentpid = (s.pc p).parentpid ∨ pc.parentpid = none →
      t = s.goto p pc u ∨ t = (s.goto p pc u).offCpu p → PcChange s t := by
    rintro pc u hpc (rfl | rfl) <;>
      exact .moved p pc hrun rfl (hpc.elim (fun h => .inr (.inl h)) .inl)
  have hback : ∀ r u, t = s.back p r u ∨ t = (s.back p r u).offCpu p → PcChange s t := by
    rintro r u (rfl | rfl) <;> exact .moved p .user hrun rfl (.inl rfl)
  unfold sectionStep at h
  split at h
  next => cases h
  next hpc => cases h; exact hgo _ _ (.inl (by rw [hpc]; rfl)) (.inl rfl)
  next hpc =>
    split at h
    next => cases h
    next => cases h; exact hback _ _ (.inl rfl)
    next => cases h; exact hgo _ _ (.inl (by rw [hpc]; rfl)) (.inl rfl)
  next hpc =>
    split at h
    next => cases h
    next => cases h; exact hback _ _ (.inl rfl)
    next => split at h <;> cases h <;> exact hgo _ _ (.inl (by rw [hpc]; rfl)) (.inl rfl)
  next hpc => cases h; exact hgo _ _ (.inl (by rw [hpc]; rfl)) (.inl rfl)
  next hpc =>
    split at h
    · cases h; exact hgo _ _ (.inl (by rw [hpc]; rfl)) (.inl rfl)
    · cases h; exact hback _ _ (.inl rfl)
  next hpc =>
    split at h
    next => cases h
    next => cases h; exact hback _ _ (.inl rfl)
    next => cases h; exact hgo _ _ (.inl (by rw [hpc]; rfl)) (.inl rfl)
  next hpc => cases h; exact hgo _ _ (.inl (by rw [hpc]; rfl)) (.inl rfl)
  next hpc =>
    split at h
    · cases h; exact hback _ _ (.inl rfl)
    · cases h; exact hgo _ _ (.inl (by rw [hpc]; rfl)) (.inl rfl)
  next hpc =>
    split at h
    next => cases h
    next =>
      split_ifs at h
      cases h
      exact hgo _ _ (.inr rfl) (.inl rfl)
  next => cases h; exact hback _ _ (.inr rfl)
  next =>
    split at h
    next => cases h; exact hback _ _ (.inl rfl)
    next => cases h; exact hback _ _ (.inl rfl)
    next => cases h; exact hgo _ _ (.inr rfl) (.inr rfl)
  next =>
    split at h
    next => cases h
    next => cases h; exact hgo _ _ (.inr rfl) (.inl rfl)
  next => cases h; exact hback _ _ (.inl rfl)

theorem step_pcChange (h : step s a = .ok t) : PcChange s t := by
  cases a with
  | call p c =>
    simp only [step] at h
    split_ifs at h with hp
    exact call_pcChange hp.1 h
  | step p e =>
    simp only [step] at h
    split_ifs at h with hp
    exact section_pcChange hp h
  | yield p =>
    simp only [step] at h
    split_ifs at h
    cases h
    exact .same rfl
  | sleep p chan =>
    simp only [step] at h
    split_ifs at h
    cases h
    exact .same rfl
  | wakeup chan => cases h; exact .same rfl
  | sched n =>
    simp only [step] at h
    split at h
    next => cases h
    next => cases h; exact .same rfl

/-- A live process stays live unless its call is over. -/
theorem Effect.live (he : Effect s a t) (hh : Holders s) {q : Slot} (hq : (s.state q).live)
    (hpc : t.pc q ≠ .user) : (t.state q).live := by
  have hne : ∀ (np : Slot) (x : ProcState), t.state = Function.update s.state np x →
      ¬ (s.state np).live → (t.state q).live := by
    intro np x hstate hnp
    rwa [hstate, Function.update_of_ne]
    rintro rfl
    exact hnp hq
  cases he with
  | quiet _ _ hstate => exact (hstate q).live.mp hq
  | leave p _ _ _ hleft hothers _ =>
    by_cases hqp : q = p
    · subst hqp
      rcases hleft with hl | hl <;> rw [hl] <;> trivial
    · rwa [hothers q hqp]
  | alloc p np _ _ _ _ hunused _ _ _ hstate => exact hne np _ hstate (by rw [hunused]; exact id)
  | release p np _ hfresh _ hstate =>
    exact hne np _ hstate (by rw [hh.embryo p np (by rw [hfresh]; rfl)]; exact id)
  | enterUnlisted _ _ _ _ _ _ hstate => rwa [hstate]
  | enter _ _ _ _ _ _ _ _ _ _ _ _ _ hstate => rwa [hstate]
  | name _ _ _ _ _ _ _ _ _ hstate => rwa [hstate]
  | publish p np k _ hnamed _ hstate =>
    exact hne np _ hstate (by rw [hh.embryo p np (by rw [hnamed]; rfl)]; exact id)
  | delist _ _ _ _ _ _ _ _ _ hstate => rwa [hstate]
  | exit p _ _ _ huser _ _ hothers =>
    have hqp : q ≠ p := by
      rintro rfl
      exact hpc huser
    exact (hothers q hqp).live.mp hq
  | reap p x _ _ _ _ _ _ hzombie _ _ hstate => exact hne x _ hstate (by rw [hzombie]; exact id)

/-- A live process keeps its pid. -/
theorem Effect.pid_live (he : Effect s a t) {q : Slot} (hq : (s.state q).live) :
    t.pid q = s.pid q := by
  have hne : ∀ (np : Slot) (n : ℤ), t.pid = Function.update s.pid np n →
      ¬ (s.state np).live → t.pid q = s.pid q := by
    intro np n hpid hnp
    rw [hpid, Function.update_of_ne]
    rintro rfl
    exact hnp hq
  cases he with
  | quiet names | leave _ names | release _ _ names | enterUnlisted _ _ names
  | publish _ _ _ names | exit _ names => rw [names.pid]
  | alloc p np _ _ _ _ hunused hpid => exact hne np _ hpid (by rw [hunused]; exact id)
  | enter _ _ _ _ _ _ hpid | name _ _ _ _ hpid | delist _ _ _ hpid => rw [hpid]
  | reap p x _ _ _ _ _ _ hzombie hpid => exact hne x _ hpid (by rw [hzombie]; exact id)

/-- A process in a call is live, and `joinContainer` has its own pid in `parentpid`. -/
structure InCall (s : Sys) : Prop where
  live : ∀ q, s.pc q ≠ .user → (s.state q).live
  parentpid : ∀ q pp, (s.pc q).parentpid = some pp → pp = s.pid q

theorem InCall.step (h : InCall s) (hh : Holders s) (ht : Containers.step s a = .ok t) :
    InCall t := by
  have he := step_effect ht
  have hbusy : ∀ q pp, (s.pc q).parentpid = some pp → s.pc q ≠ .user := by
    intro q pp hq hu
    rw [hu] at hq
    cases hq
  rcases step_pcChange ht with hpc | ⟨p, pc, hrun, hpc, hpp⟩
  · refine ⟨fun q hq => ?_, fun q pp hq => ?_⟩
    · exact he.live hh (h.live q (by rwa [← hpc])) hq
    · rw [hpc] at hq
      rw [he.pid_live (h.live q (hbusy q pp hq))]
      exact h.parentpid q pp hq
  · have hplive : (s.state p).live := by rw [hrun]; trivial
    refine ⟨fun q hq => ?_, fun q pp hq => ?_⟩
    · refine he.live hh ?_ hq
      by_cases hqp : q = p
      · rwa [hqp]
      · rw [hpc, Function.update_of_ne hqp] at hq
        exact h.live q hq
    · by_cases hqp : q = p
      · subst hqp
        rw [hpc, Function.update_self] at hq
        rw [he.pid_live hplive]
        rcases hpp with hn | hs | hn
        · rw [hn] at hq; cases hq
        · rw [hs] at hq
          exact h.parentpid q pp hq
        · rw [hn] at hq
          exact (Option.some.inj hq).symm
      · rw [hpc, Function.update_of_ne hqp] at hq
        rw [he.pid_live (h.live q (hbusy q pp hq))]
        exact h.parentpid q pp hq

/-- Pids are given out once; a slot in use has one. -/
structure Pids (s : Sys) : Prop where
  tickets : Tickets s.pid s.t.nextpid
  inUse : ∀ p, s.state p ≠ .unused → s.pid p ≠ 0

theorem Pids.same (h : Pids s) (hpid : t.pid = s.pid) (hnext : t.t.nextpid = s.t.nextpid)
    (hstate : ∀ p, s.state p = .unused → t.state p = .unused) : Pids t where
  tickets := by rw [hpid, hnext]; exact h.tickets
  inUse p hp := by
    rw [hpid]
    exact h.inUse p fun hu => hp (hstate p hu)

theorem Pids.step (h : Pids s) (hh : Holders s) (he : Effect s a t) : Pids t := by
  have hupdate : ∀ (np : Slot) (x y : ProcState), t.state = Function.update s.state np y →
      s.state np = x → x ≠ .unused → ∀ p, s.state p = .unused → t.state p = .unused := by
    intro np x y hstate hnp hx p hp
    rw [hstate, Function.update_of_ne, hp]
    rintro rfl
    exact hx (hnp.symm.trans hp)
  cases he with
  | quiet names _ hstate =>
    refine h.same names.pid names.nextpid fun p hp => ?_
    have hp' : ¬ (s.state p).live := by rw [hp]; exact id
    rw [(hstate p).eq_of_not_live hp', hp]
  | leave p names _ hrun _ hothers _ =>
    refine h.same names.pid names.nextpid fun q hq => ?_
    have hqp : q ≠ p := by
      rintro rfl
      rw [hq] at hrun
      cases hrun
    rw [hothers q hqp, hq]
  | alloc p np _ _ _ _ hunused hpid hnext _ hstate =>
    refine ⟨?_, fun q hq => ?_⟩
    · rw [hpid, hnext]
      exact h.tickets.give np
    · rw [hpid, Function.update_apply]
      split_ifs with h1
      · exact h.tickets.next_ne_zero np
      · rw [hstate, Function.update_of_ne h1] at hq
        exact h.inUse q hq
  | release p np names hfresh _ hstate =>
    have hemb := hh.embryo p np (by rw [hfresh]; rfl)
    exact h.same names.pid names.nextpid (hupdate np _ _ hstate hemb (by decide))
  | enterUnlisted _ _ names _ _ _ hstate =>
    exact h.same names.pid names.nextpid fun p hp => by rw [hstate, hp]
  | enter _ _ _ _ _ _ hpid hnext _ _ _ _ _ hstate =>
    exact h.same hpid hnext fun p hp => by rw [hstate, hp]
  | name _ _ _ _ hpid hnext _ _ _ hstate => exact h.same hpid hnext fun p hp => by rw [hstate, hp]
  | publish p np k names hnamed _ hstate =>
    have hemb := hh.embryo p np (by rw [hnamed]; rfl)
    exact h.same names.pid names.nextpid (hupdate np _ _ hstate hemb (by decide))
  | delist _ _ _ hpid hnext _ _ _ _ hstate =>
    exact h.same hpid hnext fun p hp => by rw [hstate, hp]
  | exit p names hrun _ _ _ _ hothers =>
    refine h.same names.pid names.nextpid fun q hq => ?_
    have hqp : q ≠ p := by
      rintro rfl
      rw [hq] at hrun
      cases hrun
    have hq' : ¬ (s.state q).live := by rw [hq]; exact id
    rw [(hothers q hqp).eq_of_not_live hq', hq]
  | reap p x _ _ hnext _ _ _ _ hpid _ hstate =>
    refine ⟨?_, fun q hq => ?_⟩
    · rw [hpid, hnext]
      exact h.tickets.clear x
    · rw [hstate, Function.update_apply] at hq
      rw [hpid, Function.update_apply]
      split_ifs at hq ⊢
      · exact absurd rfl hq
      · exact h.inUse q hq

end Xv6Container.Containers
