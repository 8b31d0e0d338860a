import Xv6Container.Containers.Listing
import Xv6Container.Containers.Pids

/-! Processes the scheduler can find. In a turn of a container from 1 on, `scheduler`
switches only to the pid it has read from that container's list, so a process of the
container that waits for the CPU has to be listed. The kernel keeps this up except in
one place: `joinContainer` takes its caller off the list and then still runs `exit`,
which closes files and starts a log transaction. A caller that is preempted or goes to
sleep in this tail is not listed any more and is never scheduled again. -/

namespace Xv6Container.Containers

open Lib

variable {s t : Sys} {a : Act}

/-! ### The invariant -/

/-- The process is on the list of its container. -/
def Sys.Listed (s : Sys) (p : Slot) : Prop :=
  ∃ (c : Fin NCONT) (i : Fin PROCESS_COUNT), s.containerID p = c.val ∧ s.list c i = some p

/-- The scheduler of this CPU begins a turn of container `c` at entry `i` of its list. -/
structure Cpu.TurnAt (u : Cpu) (t : Tables) (c : Fin NCONT) (i : Fin PROCESS_COUNT) : Prop where
  idle : u.proc = none
  pick : u.phase = .pick
  turn : u.cntNum = c.val
  created : (c.val : ℤ) < t.containerNum
  entry : u.curLocation c % PROCESS_COUNT = i.val

/-- Every process of a container from 1 on that waits for the CPU or sleeps is listed. In
a turn of such a container the scheduler switches only to the pid it has taken from the
list, and a listed process that waits for the CPU runs in the turn that begins at its
entry. -/
structure Schedulable (s : Sys) : Prop where
  listed : ∀ p, 1 ≤ s.containerID p → s.state p = .runnable ∨ s.state p = .sleeping → s.Listed p
  only : ∀ n p t, 1 ≤ (s.cpu n).cntNum → step s (.sched n) = .ok t → (t.cpu n).proc = some p →
    s.pid p = (s.cpu n).pid ∧ s.containerID p = (s.cpu n).cntNum
  runs : ∀ n p (c : Fin NCONT) i, 1 ≤ c.val → s.containerID p = c.val → s.state p = .runnable →
    s.list c i = some p → (s.cpu n).TurnAt s.t c i →
    ∃ t u, step s (.sched n) = .ok t ∧ step t (.sched n) = .ok u ∧ (u.cpu n).proc = some p

/-- A process of a container from 1 on is neither preempted nor put to sleep in the
`exit` at the end of `joinContainer`. -/
def StaysInTail (s : Sys) : Act → Prop
  | .yield p | .sleep p _ => ¬ (s.pc p = .exiting true ∧ 1 ≤ s.containerID p)
  | _ => True

/-- A process is listed from before it becomes RUNNABLE up to the tail of
`joinContainer`, and in the tail it keeps running. -/
structure Findable (s : Sys) : Prop where
  holders : Holders s
  pids : Pids s
  inCall : InCall s
  entered : ∀ q k np, s.stage q = .entered k np → 1 ≤ k.target s.t q →
    ∃ (c : Fin NCONT) (i : Fin PROCESS_COUNT), k.target s.t q = c.val ∧ s.list c i = some np
  named : ∀ q k np, s.stage q = .named k np → 1 ≤ s.containerID np → s.Listed np
  live : ∀ p, (s.state p).live → s.stage p ≠ .tail → 1 ≤ s.containerID p → s.Listed p
  tail : ∀ p, s.stage p = .tail → 1 ≤ s.containerID p → s.state p = .running

theorem Sys.Listed.mono {p : Slot} (hid : t.containerID p = s.containerID p)
    (hlist : ∀ c i, s.list c i = some p → t.list c i = some p) (h : s.Listed p) : t.Listed p := by
  obtain ⟨c, i, hc, hi⟩ := h
  exact ⟨c, i, hid.trans hc, hlist c i hi⟩

namespace Findable

/-- What a step has to keep: the names of live and of named processes, the entries of
processes outside the tail, and a running tail. -/
theorem frame (h : Findable s) (hh : Holders t) (hp : Pids t) (hc : InCall t)
    (hid : ∀ p, (s.state p).live ∨ (∃ q k, s.stage q = .named k p) →
      t.containerID p = s.containerID p)
    (hlist : ∀ c i p, (s.state p).live ∧ s.stage p ≠ .tail ∧ t.stage p ≠ .tail ∨
      (∃ q, (s.stage q).held = some p) → s.list c i = some p → t.list c i = some p)
    (hentered : ∀ q k np, t.stage q = .entered k np → s.stage q = .entered k np ∨
      (1 ≤ k.target t.t q → ∃ (c : Fin NCONT) (i : Fin PROCESS_COUNT),
        k.target t.t q = c.val ∧ t.list c i = some np))
    (hnamed : ∀ q k np, t.stage q = .named k np → s.stage q = .named k np ∨
      (1 ≤ t.containerID np → t.Listed np))
    (hlive : ∀ p, (t.state p).live → (s.state p).live ∧ (t.stage p ≠ .tail → s.stage p ≠ .tail) ∨
      ∃ q k, s.stage q = .named k p)
    (htail : ∀ p, t.stage p = .tail → 1 ≤ t.containerID p → t.state p = .running) :
    Findable t where
  holders := hh
  pids := hp
  inCall := hc
  entered q k np hq h1 := by
    rcases hentered q k np hq with hq' | hnew
    · have hsame : t.containerID q = s.containerID q :=
        hid q (.inl (h.holders.live q (by rw [hq']; exact nofun)))
      rw [target_congr hsame] at h1 ⊢
      obtain ⟨c, i, hci, hi⟩ := h.entered q k np hq' h1
      exact ⟨c, i, hci, hlist c i np (.inr ⟨q, by rw [hq']; rfl⟩) hi⟩
    · exact hnew h1
  named q k np hq h1 := by
    rcases hnamed q k np hq with hq' | hnew
    · have hsame := hid np (.inr ⟨q, k, hq'⟩)
      rw [hsame] at h1
      exact (h.named q k np hq' h1).mono hsame fun c i hi =>
        hlist c i np (.inr ⟨q, by rw [hq']; rfl⟩) hi
    · exact hnew h1
  live p hp ht h1 := by
    rcases hlive p hp with ⟨hl, hs⟩ | ⟨q, k, hq⟩
    · have hsame := hid p (.inl hl)
      rw [hsame] at h1
      exact (h.live p hl (hs ht) h1).mono hsame fun c i hi =>
        hlist c i p (.inl ⟨hl, hs ht, ht⟩) hi
    · have hsame := hid p (.inr ⟨q, k, hq⟩)
      rw [hsame] at h1
      exact (h.named q k p hq h1).mono hsame fun c i hi =>
        hlist c i p (.inr ⟨q, by rw [hq]; rfl⟩) hi
  tail := htail

/-- Only the acting process gets the new stage. -/
theorem stage_old {p q : Slot} {b x : Stage} (hstage : t.stage = Function.update s.stage p b)
    (hq : t.stage q = x) (hx : x ≠ b) : s.stage q = x := by
  rw [hstage, Function.update_apply] at hq
  split_ifs at hq
  · exact absurd hq.symm hx
  · exact hq

theorem stage_tail {p q : Slot} {b : Stage} (hstage : t.stage = Function.update s.stage p b)
    (hp : s.stage p ≠ .tail) (hq : s.stage q = .tail) : t.stage q = .tail := by
  have hqp : q ≠ p := by
    rintro rfl
    exact hp hq
  rw [hstage, Function.update_of_ne hqp, hq]

/-- The tail is a running process, so it is not a slot another process is filling. -/
theorem tail_ne_held (h : Findable s) {p q np : Slot} (hp : s.stage p = .tail)
    (hq : (s.stage q).held = some np) : p ≠ np :=
  h.holders.ne_held (h.holders.live p (by rw [hp]; exact nofun)) hq

/-- No name, list or stage changes, no process comes alive and the tail goes on. -/
theorem frame_still (h : Findable s) (hh : Holders t) (hp : Pids t) (hc : InCall t)
    (hid : t.containerID = s.containerID) (hlist : t.list = s.list) (hstage : t.stage = s.stage)
    (hlive : ∀ q, (t.state q).live → (s.state q).live)
    (htail : ∀ q, s.stage q = .tail → 1 ≤ s.containerID q → s.state q = .running →
      t.state q = .running) : Findable t := by
  refine h.frame hh hp hc (fun q _ => by rw [hid]) (fun c i q _ hi => by rwa [hlist])
    (fun q k np hq => .inl (by rwa [← hstage])) (fun q k np hq => .inl (by rwa [← hstage]))
    (fun q hq => .inl ⟨hlive q hq, by rw [hstage]; exact id⟩) fun q hq h1 => ?_
  rw [hstage] at hq
  rw [hid] at h1
  exact htail q hq h1 (h.tail q hq h1)

/-- The process `p` gets a new stage, which is not the tail and names no process; if it lists
one, then in container 0. No name or list changes. -/
theorem frame_act (h : Findable s) (hh : Holders t) (hp : Pids t) (hc : InCall t) {p : Slot}
    {b : Stage} (hid : t.containerID = s.containerID) (hlist : t.list = s.list)
    (hstage : t.stage = Function.update s.stage p b) (hb : b ≠ .tail)
    (hentered : ∀ k np, b = .entered k np → ¬ 1 ≤ k.target s.t p) (hnamed : ∀ k np, b ≠ .named k np)
    (hlive : ∀ q, (t.state q).live →
      (s.state q).live ∧ (q = p → s.stage p ≠ .tail) ∨ ∃ x k, s.stage x = .named k q)
    (htail : ∀ q, q ≠ p → s.stage q = .tail → s.state q = .running → t.state q = .running) :
    Findable t := by
  refine h.frame hh hp hc (fun q _ => by rw [hid]) (fun c i q _ hi => by rwa [hlist])
    (fun q k x hq => ?_) (fun q k x hq => .inl (stage_old hstage hq (hnamed k x).symm))
    (fun q hq => ?_) fun q hq h1 => ?_
  · by_cases hqp : q = p
    · rw [hqp, hstage, Function.update_self] at hq
      refine .inr fun h1 => ?_
      rw [hqp, target_congr (congrFun hid p)] at h1
      exact absurd h1 (hentered k x hq)
    · rw [hstage, Function.update_of_ne hqp] at hq
      exact .inl hq
  · refine (hlive q hq).imp_left fun hold => ⟨hold.1, fun hne htl => hne ?_⟩
    have hqp : q ≠ p := fun hqp => hold.2 hqp (hqp ▸ htl)
    rw [hstage, Function.update_of_ne hqp, htl]
  · have hqp : q ≠ p := by
      rintro rfl
      rw [hstage, Function.update_self] at hq
      exact hb hq
    rw [hstage, Function.update_of_ne hqp] at hq
    rw [hid] at h1
    exact htail q hqp hq (h.tail q hq h1)

/-- A process in the tail does not leave the CPU in a step that the condition allows. -/
theorem not_leaves (hg : StaysInTail s a) {p : Slot}
    (hact : a = .yield p ∨ (∃ chan, a = .sleep p chan) ∨ s.stage p = .idle)
    (htl : s.stage p = .tail) : ¬ 1 ≤ s.containerID p := by
  intro h1
  have hpc : s.pc p = .exiting true := by
    rw [Sys.stage] at htl
    cases hpc : s.pc p with
    | exiting b => rw [hpc] at htl; cases b <;> [cases htl; rfl]
    | _ => rw [hpc] at htl; cases htl
  rcases hact with rfl | ⟨chan, rfl⟩ | hidle
  · exact hg ⟨hpc, h1⟩
  · exact hg ⟨hpc, h1⟩
  · rw [htl] at hidle
    cases hidle

/-- `fork` and `cfork` list the slot they have filled. -/
theorem enter (h : Findable s) (hh : Holders t) (hp : Pids t) (hc : InCall t) {p np : Slot}
    {k : Creator} {c : Fin NCONT} {i : Fin PROCESS_COUNT} (hid : t.containerID = s.containerID)
    (hpt : s.stage p ≠ .tail) (htarget : k.target s.t p = c.val) (hfree : s.list c i = none)
    (hlist : t.list = Function.update s.list c (Function.update (s.list c) i (some np)))
    (hstage : t.stage = Function.update s.stage p (.entered k np)) (hstate : t.state = s.state) :
    Findable t := by
  refine h.frame hh hp hc (fun p _ => by rw [hid]) (fun d j x _ hx => ?_) (fun q l x hq => ?_)
    (fun q k x hq => .inl (stage_old hstage hq (by rintro ⟨⟩)))
    (fun q hq => .inl ⟨by rwa [← hstate], fun hne htl => hne (stage_tail hstage hpt htl)⟩)
    fun q hq h1 => ?_
  · rw [hlist, Function.update_apply]
    split_ifs with hd
    · subst hd
      rw [Function.update_of_ne, hx]
      rintro rfl
      rw [hfree] at hx
      cases hx
    · exact hx
  · by_cases hqp : q = p
    · rw [hqp, hstage, Function.update_self] at hq
      cases hq
      refine .inr fun _ => ⟨c, i, ?_, by rw [hlist, Function.update_self, Function.update_self]⟩
      rw [hqp, target_congr (congrFun hid p), htarget]
    · rw [hstage, Function.update_of_ne hqp] at hq
      exact .inl hq
  · rw [hid] at h1
    rw [hstate]
    exact h.tail q (stage_old hstage hq (by rintro ⟨⟩)) h1

/-- The new process gets the container it is listed in. -/
theorem name (h : Findable s) (hh : Holders t) (hp : Pids t) (hc : InCall t) {p np : Slot}
    {k : Creator} (hlist : t.list = s.list) (hentered : s.stage p = .entered k np)
    (hid : t.containerID = Function.update s.containerID np (k.target s.t p))
    (hstage : t.stage = Function.update s.stage p (.named k np)) (hstate : t.state = s.state) :
    Findable t := by
  have hheld : (s.stage p).held = some np := by rw [hentered]; rfl
  have hpt : s.stage p ≠ .tail := by rw [hentered]; rintro ⟨⟩
  have hother : ∀ q, q ≠ np → t.containerID q = s.containerID q := by
    intro q hq
    rw [hid, Function.update_of_ne hq]
  refine h.frame hh hp hc (fun q hq => hother q ?_) (fun c i p _ hi => by rwa [hlist])
    (fun q k x hq => .inl (stage_old hstage hq (by rintro ⟨⟩))) (fun q l x hq => ?_)
    (fun q hq => .inl ⟨by rwa [← hstate], fun hne htl => hne (stage_tail hstage hpt htl)⟩)
    fun q hq h1 => ?_
  · rcases hq with hq | ⟨x, l, hx⟩
    · exact h.holders.ne_held hq hheld
    · rintro rfl
      have := h.holders.unique x p q (by rw [hx]; rfl) hheld
      rw [this, hentered] at hx
      cases hx
  · by_cases hqp : q = p
    · rw [hqp, hstage, Function.update_self] at hq
      cases hq
      refine .inr fun h1 => ?_
      rw [hid, Function.update_self] at h1
      obtain ⟨c, i, hci, hi⟩ := h.entered p k np hentered h1
      exact ⟨c, i, by rw [hid, Function.update_self, hci], by rw [hlist, hi]⟩
    · rw [hstage, Function.update_of_ne hqp] at hq
      exact .inl hq
  · have htl := stage_old hstage hq (by rintro ⟨⟩)
    rw [hother q (h.tail_ne_held htl hheld)] at h1
    rw [hstate]
    exact h.tail q htl h1

/-- `joinContainer` takes its caller, and nobody else, off the list. -/
theorem delist (h : Findable s) (hh : Holders t) (hp : Pids t) (hc : InCall t) {p : Slot} {pp : ℤ}
    (hid : t.containerID = s.containerID) (hpc : s.pc p = .delist pp)
    (hrun : s.state p = .running)
    (hlist : ∀ c i, t.list c i = s.list c i ∨
      (t.list c i = none ∧ ∀ q, s.list c i = some q → s.pid q = pp))
    (hstage : t.stage = Function.update s.stage p .tail) (hstate : t.state = s.state) :
    Findable t := by
  have hpp : pp = s.pid p := h.inCall.parentpid p pp (by rw [hpc]; rfl)
  have hidle : s.stage p = .idle := by rw [Sys.stage, hpc]; rfl
  have hpt : s.stage p ≠ .tail := by rw [hidle]; rintro ⟨⟩
  have hpne : s.pid p ≠ 0 := h.pids.inUse p (by rw [hrun]; rintro ⟨⟩)
  refine h.frame hh hp hc (fun p _ => by rw [hid]) (fun c i x hx hi => ?_)
    (fun q k x hq => .inl (stage_old hstage hq (by rintro ⟨⟩)))
    (fun q k x hq => .inl (stage_old hstage hq (by rintro ⟨⟩)))
    (fun q hq => .inl ⟨by rwa [← hstate], fun hne htl => hne (stage_tail hstage hpt htl)⟩)
    fun q hq h1 => ?_
  · rcases hlist c i with heq | ⟨-, hgone⟩
    · rw [heq, hi]
    · -- the entry that is taken off is the caller's own
      have hxp : x = p := (h.pids.tickets.unique p x hpne (by rw [hgone x hi, hpp])).symm
      subst hxp
      rcases hx with ⟨-, -, hne⟩ | ⟨q, hq⟩
      · exact absurd (by rw [hstage, Function.update_self]) hne
      · exact absurd rfl (h.holders.ne_held (by rw [hrun]; trivial) hq)
  · rw [hstate]
    by_cases hqp : q = p
    · rw [hqp, hrun]
    · rw [hstage, Function.update_of_ne hqp] at hq
      rw [hid] at h1
      exact h.tail q hq h1

theorem step (h : Findable s) (hg : StaysInTail s a) (ht : Containers.step s a = .ok t) :
    Findable t := by
  have he := step_effect ht
  have hh := h.holders.step he
  have hp := h.pids.step h.holders he
  have hc := h.inCall.step h.holders ht
  cases he with
  | quiet names hstage hstate =>
    refine h.frame_still hh hp hc names.containerID names.list hstage
      (fun q hq => (hstate q).live.mpr hq) fun q _ _ hrun => ?_
    have := hstate q
    rw [hrun] at this
    exact this.running
  | leave p names hstage hrun hleft hothers hact =>
    refine h.frame_still hh hp hc names.containerID names.list hstage (fun q hq => ?_)
      fun q htl h1 hrun => ?_
    · by_cases hqp : q = p
      · rw [hqp, hrun]; trivial
      · rwa [← hothers q hqp]
    · have hqp : q ≠ p := by
        rintro rfl
        exact not_leaves hg hact htl h1
      rw [hothers q hqp, hrun]
  | alloc p np hlist hid hidle hrun hunused _ _ hstage hstate =>
    refine h.frame_act hh hp hc hid hlist hstage (by rintro ⟨⟩) (by rintro k x ⟨⟩)
      (by rintro k x ⟨⟩) (fun q hq => .inl ⟨?_, fun _ => by rw [hidle]; rintro ⟨⟩⟩)
      fun q _ _ hrunning => ?_
    · rw [hstate, Function.update_apply] at hq
      split_ifs at hq
      · exact absurd hq id
      · exact hq
    · rw [hstate, Function.update_of_ne, hrunning]
      rintro rfl
      rw [hunused] at hrunning
      cases hrunning
  | release p np names hfresh hstage hstate =>
    have hheld : (s.stage p).held = some np := by rw [hfresh]; rfl
    refine h.frame_act hh hp hc names.containerID names.list hstage (by rintro ⟨⟩)
      (by rintro k x ⟨⟩) (by rintro k x ⟨⟩)
      (fun q hq => .inl ⟨?_, fun _ => by rw [hfresh]; rintro ⟨⟩⟩) fun q _ htl hrunning => ?_
    · rw [hstate, Function.update_apply] at hq
      split_ifs at hq
      · exact absurd hq id
      · exact hq
    · rw [hstate, Function.update_of_ne (h.tail_ne_held htl hheld), hrunning]
  | enterUnlisted p np names hfresh htarget hstage hstate =>
    refine h.frame_act hh hp hc names.containerID names.list hstage (by rintro ⟨⟩)
      (fun k x hq => ?_) (by rintro k x ⟨⟩)
      (fun q hq => .inl ⟨by rwa [← hstate], fun _ => by rw [hfresh]; rintro ⟨⟩⟩)
      fun q _ _ hrunning => by rw [hstate, hrunning]
    cases hq
    change ¬ 1 ≤ s.containerID p
    omega
  | enter p np k c i hid _ _ hfresh htarget hfree hlist hstage hstate =>
    have hpt : s.stage p ≠ .tail := by rw [hfresh]; rintro ⟨⟩
    exact h.enter hh hp hc hid hpt htarget hfree hlist hstage hstate
  | name p np k hlist _ _ hentered hid hstage hstate =>
    exact h.name hh hp hc hlist hentered hid hstage hstate
  | publish p np k names hnamed hstage hstate =>
    have hheld : (s.stage p).held = some np := by rw [hnamed]; rfl
    refine h.frame_act hh hp hc names.containerID names.list hstage (by rintro ⟨⟩)
      (by rintro k x ⟨⟩) (by rintro k x ⟨⟩) (fun q hq => ?_) fun q _ htl hrunning => ?_
    · by_cases hqnp : q = np
      · exact .inr ⟨p, k, by rw [hqnp, hnamed]⟩
      · rw [hstate, Function.update_of_ne hqnp] at hq
        exact .inl ⟨hq, fun _ => by rw [hnamed]; rintro ⟨⟩⟩
    · rw [hstate, Function.update_of_ne (h.tail_ne_held htl hheld), hrunning]
  | delist p pp hid hpid _ hpc hrun hlist hstage hstate =>
    exact h.delist hh hp hc hid hpc hrun hlist hstage hstate
  | exit p names hrun hexiting _ hstage hzombie hothers =>
    refine h.frame_act hh hp hc names.containerID names.list hstage (by rintro ⟨⟩)
      (by rintro k x ⟨⟩) (by rintro k x ⟨⟩) (fun q hq => ?_) fun q hqp _ hrunning => ?_
    · have hqp : q ≠ p := by
        rintro rfl
        rw [hzombie] at hq
        exact hq
      exact .inl ⟨(hothers q hqp).live.mpr hq, fun heq => absurd heq hqp⟩
    · have := hothers q hqp
      rw [hrunning] at this
      exact this.running
  | reap p q hlist hid _ _ _ _ hzombie _ hstage hstate =>
    refine h.frame_still hh hp hc hid hlist hstage (fun x hx => ?_) fun x _ _ hrunning => ?_
    · rw [hstate, Function.update_apply] at hx
      split_ifs at hx
      · exact absurd hx id
      · exact hx
    · rw [hstate, Function.update_of_ne, hrunning]
      rintro rfl
      rw [hzombie] at hrunning
      cases hrunning

end Findable

/-! ### Runs -/

theorem Booted.pid (h : Booted s) :
    s.t.nextpid = 2 ∧ s.pid = Function.update (fun _ => 0) 0 1 ∧
      s.state = Function.update (fun _ => .unused) 0 .runnable ∧ s.containerID = fun _ => 0 := by
  obtain ⟨page, t, ht, rfl⟩ := h
  obtain ⟨t', ht', -, hnext, -, -, hproc, -⟩ := Tables.userinit_ok page
  cases Except.ok.inj (ht.symm.trans ht')
  refine ⟨hnext, ?_, ?_, ?_⟩ <;> funext p <;>
    simp only [Sys.pid, Sys.state, Sys.containerID, boot, hproc, Function.update_apply] <;>
    split_ifs <;> rfl

theorem Booted.pids (h : Booted s) : Pids s := by
  obtain ⟨hnext, hpid, hstate, -⟩ := h.pid
  have hzero : Tickets (fun _ : Slot => (0 : ℤ)) 1 :=
    ⟨fun _ => ⟨le_rfl, by omega⟩, fun _ _ h0 => absurd rfl h0⟩
  refine ⟨?_, fun p hp => ?_⟩
  · rw [hnext, hpid]
    exact hzero.give 0
  · rw [hstate, Function.update_apply] at hp
    rw [hpid, Function.update_apply]
    split_ifs at hp ⊢ with hp0
    · decide
    · exact absurd rfl hp

theorem Booted.inCall (h : Booted s) : InCall s := by
  obtain ⟨page, t, -, rfl⟩ := h
  exact ⟨fun q hq => absurd rfl hq, fun q pp hq => nomatch hq⟩

/-- At boot every slot is in container 0. -/
theorem Booted.findable (h : Booted s) : Findable s where
  holders := h.holders
  pids := h.pids
  inCall := h.inCall
  entered q k np hq := by rw [h.stage] at hq; cases hq
  named q k np hq := by rw [h.stage] at hq; cases hq
  live p _ _ h1 := by
    simp only [h.pid.2.2.2] at h1
    omega
  tail p hp := by rw [h.stage] at hp; cases hp

theorem Findable.of_reach (hs : Reach Containers.step StaysInTail Booted s) : Findable s :=
  hs.invariant (fun _ => Booted.findable) fun _ _ _ h hg ht => h.step hg ht

/-- A process that waits is not in the tail, where only running processes are. -/
theorem Findable.listed (h : Findable s) {p : Slot} (h1 : 1 ≤ s.containerID p)
    (hstate : s.state p = .runnable ∨ s.state p = .sleeping) : s.Listed p := by
  have hlive : (s.state p).live := by rcases hstate with hs | hs <;> rw [hs] <;> trivial
  refine h.live p hlive (fun htail => ?_) h1
  have hrun := h.tail p htail h1
  rcases hstate with hs | hs <;> rw [hs] at hrun <;> cases hrun

/-! ### Turns of the scheduler -/

theorem pick_proc {t t' : Tables} {u u' : Cpu} (h : pick t u = .ok (t', u')) :
    u'.proc = u.proc := by
  unfold pick at h
  split at h
  · split at h
    · cases h
    · split at h <;> cases h <;> rfl
  · cases h; rfl

theorem check_proc {t t' : Tables} {u u' : Cpu} (h : check t u = .ok (t', u')) :
    u'.proc = u.proc := by
  unfold check at h
  dsimp only at h
  split_ifs at h
  · split at h
    · cases h
    · split_ifs at h <;> cases h <;> rfl
  · cases h; rfl

theorem endRound_proc {t t' : Tables} {u u' : Cpu} (h : endRound t u = .ok (t', u')) :
    u'.proc = u.proc := by
  unfold endRound at h
  dsimp only at h
  split_ifs at h <;> cases h <;> rfl

theorem scan_switch {t : Tables} {u : Cpu} {next : ℕ} {p : Slot}
    (h : (scan t u next).2.proc = some p) : u.proc = some p ∨ eligible t u p = true := by
  unfold scan at h
  split at h
  · exact .inl h
  next q hq =>
    have hqp : q = p := Option.some.inj h
    have hfound := (Fin.find?_eq_some_iff.mp hq).1
    rw [Bool.and_eq_true, hqp] at hfound
    exact .inr hfound.2

/-- Only the scan switches to a process, and only to one that passes its tests. -/
theorem schedStep_switch {t t' : Tables} {u u' : Cpu} {p : Slot}
    (h : schedStep t u = .ok (t', u')) (hp : u'.proc = some p) : eligible t u p = true := by
  unfold schedStep at h
  split_ifs at h with hidle
  have hnone : u.proc ≠ some p := by
    intro hsome
    rw [hsome] at hidle
    exact hidle rfl
  cases hphase : u.phase with
  | pick =>
    rw [hphase] at h
    have hsame : u'.proc = u.proc := pick_proc h
    exact absurd (hsame.symm.trans hp) hnone
  | scan next =>
    rw [hphase] at h
    have hscan : u' = (scan t u next).2 := by rw [Except.ok.inj h]
    rw [hscan] at hp
    exact (scan_switch hp).resolve_left hnone
  | check =>
    rw [hphase] at h
    have hsame : u'.proc = u.proc := check_proc h
    exact absurd (hsame.symm.trans hp) hnone
  | round =>
    rw [hphase] at h
    have hsame : u'.proc = u.proc := endRound_proc h
    exact absurd (hsame.symm.trans hp) hnone

theorem sched_only {n : Fin NCPU} {p : Slot} (hturn : 1 ≤ (s.cpu n).cntNum)
    (ht : step s (.sched n) = .ok t) (hp : (t.cpu n).proc = some p) :
    s.pid p = (s.cpu n).pid ∧ s.containerID p = (s.cpu n).cntNum := by
  simp only [step] at ht
  split at ht
  · cases ht
  next t' u' hsched =>
    cases ht
    have helig := schedStep_switch hsched (by simpa using hp)
    simp only [eligible, Bool.and_eq_true, Bool.or_eq_true, beq_iff_eq] at helig
    obtain ⟨⟨hpid | hzero, hid⟩, -⟩ := helig
    · exact ⟨hpid, hid⟩
    · omega

/-- The selection loop stops at once at an entry in use. -/
theorem select_self {process : Fin PROCESS_COUNT → Option Slot} {itr : ℕ} {i : Fin PROCESS_COUNT}
    (hitr : itr % PROCESS_COUNT = i.val) (hi : (process i).isSome) :
    select process itr PROCESS_COUNT = some i := by
  have hfin : (⟨itr % PROCESS_COUNT, Nat.mod_lt _ (by decide)⟩ : Fin PROCESS_COUNT) = i :=
    Fin.ext hitr
  simp only [select, hfin, hi, if_true]

/-- The choice at an entry in use takes the pid of its process and touches no process. -/
theorem pick_entry {t : Tables} {u : Cpu} {c : Fin NCONT} {i : Fin PROCESS_COUNT} {p : Slot}
    (h : u.TurnAt t c i) (hi : (t.container c).process i = some p) :
    ∃ t' u', pick t u = .ok (t', u') ∧ t'.proc = t.proc ∧ u'.proc = none ∧
      u'.cntNum = c.val ∧ u'.pid = (t.proc p).pid ∧ u'.phase = .scan 0 := by
  have hindex : index .curLocation NCONT u.cntNum = .ok c :=
    index_eq_ok.mpr (by exact_mod_cast h.turn)
  have hselect : select (t.container c).process (u.curLocation c) PROCESS_COUNT = some i :=
    select_self h.entry (by rw [hi]; rfl)
  have hcreated : (u.cntNum : ℤ) < t.containerNum := by
    rw [h.turn]
    exact h.created
  unfold pick
  rw [if_pos hcreated, hindex]
  dsimp only
  rw [hselect]
  dsimp only
  refine ⟨_, _, rfl, ?_, h.idle, h.turn, by rw [hi]; rfl, rfl⟩
  split_ifs <;> rfl

/-- A scan from slot 0 on switches to the process that has the chosen pid. -/
theorem scan_eligible {t : Tables} {u : Cpu} {p : Slot} (hp : eligible t u p = true)
    (honly : ∀ q, eligible t u q = true → q = p) : (scan t u 0).2.proc = some p := by
  have hfind : Fin.find? (fun q : Slot => decide (0 ≤ q.val) && eligible t u q) = some p := by
    refine Fin.find?_eq_some_iff.mpr ⟨by simpa using hp, fun q hq => ?_⟩
    by_contra hne
    have helig : eligible t u q = true := by simpa using hne
    rw [honly q helig] at hq
    exact lt_irrefl _ hq
  unfold scan
  rw [hfind]

theorem sched_runs (hpids : Pids s) {n : Fin NCPU} {p : Slot} {c : Fin NCONT}
    {i : Fin PROCESS_COUNT} (h1 : 1 ≤ c.val) (hid : s.containerID p = c.val)
    (hstate : s.state p = .runnable) (hi : s.list c i = some p) (hturn : (s.cpu n).TurnAt s.t c i) :
    ∃ t u, step s (.sched n) = .ok t ∧ step t (.sched n) = .ok u ∧ (u.cpu n).proc = some p := by
  obtain ⟨t', u', hpick, hproc, hidle, hcnt, hpid, hphase⟩ := pick_entry hturn hi
  have hfirst : schedStep s.t (s.cpu n) = .ok (t', u') := by
    unfold schedStep
    rw [hturn.idle, hturn.pick]
    exact hpick
  have helig : ∀ q, eligible t' u' q = true ↔
      s.pid q = s.pid p ∧ s.containerID q = c.val ∧ s.state q = .runnable := by
    intro q
    have hc0 : ¬ u'.cntNum = 0 := by omega
    simp only [eligible, hproc, hpid, hcnt, Bool.and_eq_true, Bool.or_eq_true, beq_iff_eq,
      show c.val ≠ 0 by omega, or_false, and_assoc]
    exact Iff.rfl
  have hscan : (scan t' u' 0).2.proc = some p := by
    refine scan_eligible ((helig p).mpr ⟨rfl, hid, hstate⟩) fun q hq => ?_
    have hpne : s.pid p ≠ 0 := hpids.inUse p (by rw [hstate]; rintro ⟨⟩)
    exact (hpids.tickets.unique p q hpne ((helig q).mp hq).1.symm).symm
  have hsecond : schedStep t' u' = .ok (scan t' u' 0) := by
    unfold schedStep
    rw [hidle, hphase]
    rfl
  refine ⟨{ s with t := t', cpu := Function.update s.cpu n u' },
    { s with t := (scan t' u' 0).1, cpu := Function.update s.cpu n (scan t' u' 0).2 },
    by simp only [step, hfirst], ?_, by simpa using hscan⟩
  simp only [step, Function.update_self, hsecond, Function.update_idem]

/-- In every run in which no process of a container from 1 on leaves the CPU in the tail
of `joinContainer`, the scheduler can find every process that waits. -/
theorem schedulable_of_staysInTail (hs : Reach step StaysInTail Booted s) : Schedulable s := by
  have h := Findable.of_reach hs
  exact ⟨fun p h1 hstate => h.listed h1 hstate, fun n p t hturn ht hp => sched_only hturn ht hp,
    fun n p c i h1 hid hstate hi hturn => sched_runs h.pids h1 hid hstate hi hturn⟩

/-! ### A caller that is preempted in the tail -/

instance (s : Sys) (a : Act) : Decidable (StaysInTail s a) :=
  match a with
  | .yield p | .sleep p _ =>
    inferInstanceAs (Decidable (¬ (s.pc p = .exiting true ∧ 1 ≤ s.containerID p)))
  | .call _ _ | .step _ _ | .wakeup _ | .sched _ => .isTrue trivial

/-- The process in container 1 is preempted before it does anything. -/
theorem schedulable_after_yield :
    ∃ s, s.containerID 2 = 1 ∧ s.state 2 = .runnable ∧ Schedulable s := by
  have hboot : Reach step StaysInTail Booted firstBoot := .start booted_firstBoot
  obtain ⟨s, hs, ht⟩ := hboot.of_endsIn
    (fun s => decide (s.containerID 2 = 1) && decide (s.state 2 = .runnable))
    (joinRun ++ [.yield 2]) (by decide +kernel)
  simp only [Bool.and_eq_true, decide_eq_true_eq] at ht
  exact ⟨s, ht.1, ht.2, schedulable_of_staysInTail hs⟩

/-- The process in container 1 leaves it and is preempted once it is off the list. -/
theorem yield_in_tail_is_lost : ∃ s, Reach step always Booted s ∧ ¬ Schedulable s := by
  have hboot : Reach step always Booted firstBoot := .start booted_firstBoot
  obtain ⟨s, hs, ht⟩ := hboot.of_endsIn
    (fun s => decide (s.containerID 2 = 1) && decide (s.state 2 = .runnable) &&
      decide (∀ i, s.list 1 i ≠ some 2))
    (joinRun ++ .call 2 .leave_container :: sections 2 9 ++ [.yield 2]) (by decide +kernel)
  simp only [Bool.and_eq_true, decide_eq_true_eq] at ht
  obtain ⟨⟨hid, hstate⟩, hoff⟩ := ht
  refine ⟨s, hs, fun h => ?_⟩
  obtain ⟨c, i, hc, hi⟩ := h.listed 2 (by omega) (.inl hstate)
  have hc1 : c = 1 := by
    apply Fin.ext
    have : ((1 : Fin NCONT) : ℕ) = 1 := rfl
    omega
  exact hoff i (by rw [← hc1, hi])

end Xv6Container.Containers
