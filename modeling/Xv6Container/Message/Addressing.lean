import Xv6Container.Message.Wakeup

/-! Who receives a message. Messages are addressed by pid, queues belong to slots. The two
agree as long as every process starts with an empty queue and no slot changes hands
between the lookup and the `enQueue` of a `sending`. Neither `wait` nor `allocproc` clears
a queue, and a lookup also finds slots that are free: what is left in a queue goes to the
next process in the slot. -/

namespace Xv6Container.Message

open Lib

variable {s t : Sys} {a : Act}

/-! ### The property and the condition -/

/-- Every message delivered so far was sent to the pid of the process that received it. -/
def WellAddressed (s : Sys) : Prop := ∀ d ∈ s.delivered, d.rec_pid = d.pid

/-- A new process gets a slot with an empty queue, and a message is queued for a slot in
use only if the process there still has the pid it was sent to. -/
def KeepsAddress (s : Sys) : Act → Prop
  | .step p _ =>
    match s.pc p with
    | .forkAlloc =>
      match s.t.allocproc with
      | .ok (some (np, _)) => (s.queue np).front = none
      | _ => True
    | .sendEnqueue i rec_pid _ => s.state i ≠ .unused → s.pid i = rec_pid
    | _ => True
  | _ => True

/-! ### The invariant -/

/-- What is queued at a slot in use was sent to its pid. -/
structure Addressed (s : Sys) : Prop where
  queued : ∃ l, Queues s.mem s.queue l ∧
    ∀ i, s.state i ≠ .unused → ∀ x ∈ l i, s.sentTo x = s.pid i
  delivered : WellAddressed s

/-- A slot in use keeps its pid, unless it has just been taken by `allocproc`. -/
theorem Base.keeps_pid (h : Base s) (ht : Message.step s a = .ok t) {i : Slot}
    (hi : t.state i ≠ .unused) : s.state i ≠ .unused ∧ t.pid i = s.pid i ∨
      ∃ p e x, a = .step p e ∧ s.pc p = .forkAlloc ∧ s.t.allocproc = .ok (some (i, x)) := by
  have hrange := h.tickets.range i
  have hmove := step_pcMove ht
  have hwas := h.was_inUse (step_state ht) hi
  cases hmove with
  | alloc p np _ old act found _ _ _ _ pid =>
    by_cases hin : i = np
    · obtain ⟨e, rfl⟩ := act
      obtain ⟨x, hx⟩ := found
      exact .inr ⟨p, e, x, rfl, old, by rw [hin]; exact hx⟩
    · have hsame : t.pid i = s.pid i := by rw [pid, Function.update_of_ne hin]
      refine .inl ⟨hwas.resolve_right ?_, hsame⟩
      omega
  | reap p q _ _ _ _ _ _ pid _ unused =>
    have hiq : i ≠ q := by
      rintro rfl
      exact hi unused
    have hsame : t.pid i = s.pid i := by rw [pid, Function.update_of_ne hiq]
    refine .inl ⟨hwas.resolve_right ?_, hsame⟩
    omega
  | stay _ _ pids | plain _ _ _ _ _ pids | lookup _ _ _ _ _ _ _ pids
  | enqueue _ _ _ _ _ _ _ _ _ _ _ pids | quit _ _ _ _ _ _ _ _ pids | tested _ _ _ _ _ _ pids
  | cleared _ _ _ _ _ _ pids | woke _ _ _ _ _ _ pids | took _ _ _ _ _ _ _ _ _ pids
  | missed _ _ _ _ _ _ _ pids | missedAgain _ _ _ _ _ _ _ pids | requested _ _ _ _ _ _ pids
  | slept _ _ _ _ _ _ pids =>
    have hsame : t.pid i = s.pid i := pids.pid i
    refine .inl ⟨hwas.resolve_right ?_, hsame⟩
    omega

namespace Addressed

/-- The nodes queued before a step are addressed right after it. -/
theorem old_nodes (hb : Base s) (hg : KeepsAddress s a) (ht : Message.step s a = .ok t)
    {l : Slot → List Page} (hq : Queues s.mem s.queue l)
    (hl : ∀ i, s.state i ≠ .unused → ∀ x ∈ l i, s.sentTo x = s.pid i) {i : Slot}
    (hi : t.state i ≠ .unused) {x : Page} (hx : x ∈ l i) : s.sentTo x = t.pid i := by
  rcases hb.keeps_pid ht hi with ⟨hs, hpid⟩ | ⟨p, e, y, rfl, hpc, halloc⟩
  · rw [hpid]
    exact hl i hs x hx
  · simp only [KeepsAddress, hpc, halloc] at hg
    rw [(hq.rep i).nil_iff_front.mpr hg] at hx
    cases hx

theorem step (h : Addressed s) (hb : Base s) (hg : KeepsAddress s a)
    (ht : Message.step s a = .ok t) : Addressed t := by
  obtain ⟨⟨l, hq, hl⟩, hdel⟩ := h
  have hold := fun i hi x hx => old_nodes hb hg ht hq hl (i := i) hi (x := x) hx
  rcases (step_pcMove ht).msgs with hm | ⟨p, i, rp, m, temp, hpc, hfresh, heq, ⟨e, rfl⟩, hm⟩ |
    ⟨p, i, u, hrun, hreads, hu, -, hm⟩
  · refine ⟨⟨l, by rw [hm.mem, hm.queue]; exact hq, fun i hi x hx => ?_⟩, ?_⟩
    · rw [hm.sentTo]
      exact hold i hi x hx
    · rw [WellAddressed, hm.delivered]
      exact hdel
  · obtain ⟨li, hq', hli⟩ := hq.enQueue i m hfresh
    have hdel' : t.delivered = s.delivered := hm.delivered
    refine ⟨⟨_, by rw [hm.mem, hm.queue]; exact hq', fun j hj x hx => ?_⟩,
      by rw [WellAddressed, hdel']; exact hdel⟩
    -- the new node is in no queue yet, so the old ones keep their address
    have hsame : ∀ k, ∀ y ∈ l k, t.sentTo y = s.sentTo y := by
      intro k y hy
      rw [hm.sentTo]
      cases temp with
      | none => rfl
      | some z =>
        simp only [Sys.enqueue]
        rw [Function.update_of_ne]
        rintro rfl
        have := hfresh y rfl
        rw [(hq.rep k).used hy] at this
        cases this
    by_cases hji : j = i
    · subst hji
      rw [Function.update_self] at hx
      rcases hli with rfl | ⟨z, rfl, rfl⟩
      · rw [hsame j x hx]
        exact hold j hj x hx
      · rw [List.mem_append, List.mem_singleton] at hx
        rcases hx with hx | rfl
        · rw [hsame j x hx]
          exact hold j hj x hx
        · simp only [KeepsAddress, hpc] at hg
          rcases hb.keeps_pid ht hj with ⟨hs, hpid⟩ | ⟨p', e', y, hact, hpc', -⟩
          · rw [hm.sentTo, hpid, hg hs]
            simp [Sys.enqueue]
          · cases hact
            rw [hpc] at hpc'
            cases hpc'
    · rw [Function.update_of_ne hji] at hx
      rw [hsame j x hx]
      exact hold j hj x hx
  · have hip : i = p := hb.own p i hreads
    subst hip
    have hfront : (s.queue i).front ≠ none := by
      intro hn
      rw [dequeue_eq_none.mpr hn] at hu
      cases hu
    cases hli : l i with
    | nil => exact absurd ((hq.rep i).nil_iff_front.mp hli) hfront
    | cons x li =>
      obtain ⟨m', qi, hdeq, hq'⟩ := hq.deQueue hli
      have hx : (s.queue i).front = some x := by
        have := hq.rep i
        rw [hli] at this
        exact this.front_cons
      unfold Sys.dequeue at hu
      rw [hdeq] at hu
      cases hu
      refine ⟨⟨_, by rw [hm.mem, hm.queue]; exact hq', fun j hj y hy => ?_⟩, ?_⟩
      · have hy' : y ∈ l j := by
          rw [Function.update_apply] at hy
          split_ifs at hy with hji
          · rw [hji, hli]
            exact List.mem_cons_of_mem x hy
          · exact hy
        rw [hm.sentTo]
        exact hold j hj y hy'
      · intro d hd
        rw [hm.delivered, List.mem_append, List.mem_singleton] at hd
        rcases hd with hd | rfl
        · exact hdel d hd
        · simp only [hx, Option.getD_some]
          exact hl i (by rw [hrun]; rintro ⟨⟩) x (by rw [hli]; exact List.mem_cons_self)

end Addressed

/-! ### Runs -/

theorem Booted.addressed (h : Booted s) : Addressed s := by
  obtain ⟨l, hq⟩ := h.represented
  obtain ⟨node, rfl⟩ := h
  have hnil : ∀ i, l i = [] := fun i => (hq.rep i).nil_iff_front.mpr rfl
  refine ⟨⟨l, hq, fun i _ x hx => ?_⟩, fun d hd => nomatch hd⟩
  rw [hnil i] at hx
  cases hx

/-- In every run in which new processes start with empty queues and no slot changes hands
under a `sending`, every message is delivered to the process it was sent to. -/
theorem wellAddressed_of_keepsAddress (hs : Reach step KeepsAddress Booted s) :
    WellAddressed s := by
  have haddr : Addressed s := by
    induction hs with
    | start h => exact h.addressed
    | next hs hg ht ih => exact ih.step (Base.of_reach hs) hg ht
  exact haddr.delivered

/-! ### A message to nobody -/

instance (s : Sys) (a : Act) : Decidable (KeepsAddress s a) :=
  match a with
  | .step p _ =>
    match h : s.pc p with
    | .forkAlloc =>
      match h' : s.t.allocproc with
      | .ok (some (np, _)) => decidable_of_iff ((s.queue np).front = none)
          (by simp only [KeepsAddress, h, h'])
      | .ok none => .isTrue (by simp only [KeepsAddress, h, h'])
      | .error _ => .isTrue (by simp only [KeepsAddress, h, h'])
    | .sendEnqueue i rec_pid _ => decidable_of_iff (s.state i ≠ .unused → s.pid i = rec_pid)
        (by simp only [KeepsAddress, h])
    | .user | .forkStack _ | .forkCopy _ | .forkFields _ | .forkPublish _ | .exiting | .waiting
    | .sendLookup _ _ | .sendTest _ | .sendClear _ | .sendWake _ | .recvLookup
    | .recvDequeue _ | .recvRequest _ | .recvSleep _ | .recvAgain _ =>
      .isTrue (by simp only [KeepsAddress, h])
  | .call _ _ | .yield _ | .sleep _ _ | .wakeup _ | .sched _ => .isTrue trivial

/-- The first process sends itself a message and receives it. -/
theorem wellAddressed_after_recv : ∃ s, s.delivered ≠ [] ∧ WellAddressed s := by
  have hboot : Reach step KeepsAddress Booted firstBoot := .start booted_firstBoot
  obtain ⟨s, hs, ht⟩ := hboot.of_endsIn (fun s => !s.delivered.isEmpty)
    (turns 1 ++ .call 0 (.send 1 hello) :: sections 0 3 ++ .call 0 .recv :: sections 0 2)
    (by decide +kernel)
  refine ⟨s, fun hnil => ?_, wellAddressed_of_keepsAddress hs⟩
  rw [hnil] at ht
  cases ht

/-- The first process sends to pid 0, which is the pid of a free slot; the child it forks
next gets the slot and receives the message. -/
theorem send_to_nobody_is_received : ∃ s, Reach step always Booted s ∧ ¬ WellAddressed s := by
  have hboot : Reach step always Booted firstBoot := .start booted_firstBoot
  obtain ⟨s, hs, ht⟩ := hboot.of_endsIn
    (fun s => s.delivered.any fun d => decide (d.rec_pid ≠ d.pid))
    (turns 1 ++ .call 0 (.send 0 hello) :: sections 0 3 ++ .call 0 .fork :: sections 0 5 ++
      .call 0 .wait :: sections 0 1 ++ turns 1 ++ .call 1 .recv :: sections 1 2)
    (by decide +kernel)
  simp only [List.any_eq_true, decide_eq_true_eq] at ht
  obtain ⟨d, hd, hne⟩ := ht
  exact ⟨s, hs, fun h => hne (h d hd)⟩

end Xv6Container.Message
