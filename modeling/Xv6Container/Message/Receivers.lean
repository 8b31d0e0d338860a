import Xv6Container.Lib.Tickets
import Xv6Container.Message.Steps

/-! What holds in every run of the message system. Pids are given out once and every slot
in use has one, so `recv` finds its own slot when it looks up its pid and reads its own
queue; a slot that `fork` is filling stays an EMBRYO; and the queues keep their nodes
apart. -/

namespace Xv6Container.Message

open Lib

variable {s t : Sys} {a : Act}

structure Base (s : Sys) : Prop where
  tickets : Tickets s.pid s.t.nextpid
  inUse : ∀ p, s.state p ≠ .unused → s.pid p ≠ 0
  embryo : ∀ p np, (s.pc p).holds = some np → s.state np = .embryo
  unique : ∀ p q np, (s.pc p).holds = some np → (s.pc q).holds = some np → p = q
  own : ∀ p i, (s.pc p).reads = some i → i = p

namespace Base

/-- A slot that is being filled leaves the EMBRYO state only with its creator's call. -/
theorem stays_embryo (h : Base s) (hstate : ∀ q, StateMove s a t q) {p np : Slot}
    (hold : (s.pc p).holds = some np) (hpc : t.pc p ≠ .user) : t.state np = .embryo := by
  have hemb := h.embryo p np hold
  cases hstate np with
  | same eq => rw [eq, hemb]
  | allocated _ new => exact new
  | released q held pc =>
    rw [h.unique q p np held hold] at pc
    exact absurd pc hpc
  | woken old | chosen old | left old | reaped old =>
    rw [hemb] at old
    cases old

/-- A slot that is in use afterwards was in use before, or has just been given a pid. -/
theorem was_inUse (h : Base s) (hstate : ∀ q, StateMove s a t q) {p : Slot}
    (hp : t.state p ≠ .unused) : s.state p ≠ .unused ∨ t.pid p = s.t.nextpid := by
  cases hstate p with
  | same eq => exact .inl (by rwa [← eq])
  | woken old | chosen old | left old => exact .inl (by rw [old]; exact nofun)
  | allocated _ _ pid => exact .inr pid
  | released q held => exact .inl (by rw [h.embryo q p held]; exact nofun)
  | reaped _ new => exact absurd new hp

theorem step (h : Base s) (ht : Message.step s a = .ok t) : Base t := by
  have hmove := step_pcMove ht
  have hstate := step_state ht
  have hold : ∀ q np, (t.pc q).holds = some np → (s.pc q).holds = some np ∨
      s.state np = .unused ∧ t.state np = .embryo ∧
        ∀ r, r ≠ q → t.pc r = s.pc r := by
    intro q np hq
    rcases hmove.pc with hpc | ⟨p, pc, -, hpc, hholds, -⟩
    · rw [hpc] at hq
      exact .inl hq
    · by_cases hqp : q = p
      · rw [hqp, hpc, Function.update_self] at hq
        rcases hholds with hn | hs | ⟨np', hnp, hunused, hemb⟩
        · rw [hn] at hq; cases hq
        · exact .inl (by rw [hqp, ← hs, hq])
        · rw [hnp] at hq
          cases hq
          exact .inr ⟨hunused, hemb, fun r hr => by rw [hpc, Function.update_of_ne (hqp ▸ hr)]⟩
      · rw [hpc, Function.update_of_ne hqp] at hq
        exact .inl hq
  constructor
  case tickets =>
    rcases hmove.pid with ⟨hpid, hnext⟩ | ⟨np, hpid, hnext, -⟩ | ⟨q, hpid, hnext, -⟩
    · rw [hpid, hnext]; exact h.tickets
    · rw [hpid, hnext]; exact h.tickets.give np
    · rw [hpid, hnext]; exact h.tickets.clear q
  case inUse =>
    intro p hp
    rcases h.was_inUse hstate hp with hs | hnew
    · have hne := h.inUse p hs
      rcases hmove.pid with ⟨hpid, -⟩ | ⟨np, hpid, -, hunused⟩ | ⟨q, hpid, -, hfree⟩
      · rwa [hpid]
      · rw [hpid, Function.update_of_ne]
        · exact hne
        · rintro rfl
          exact hs hunused
      · rw [hpid, Function.update_of_ne]
        · exact hne
        · rintro rfl
          exact hp hfree
    · rw [hnew]
      exact h.tickets.next_ne_zero p
  case embryo =>
    intro p np hp
    rcases hold p np hp with hs | ⟨-, hemb, -⟩
    · refine h.stays_embryo hstate hs fun hu => ?_
      rw [hu] at hp
      cases hp
    · exact hemb
  case unique =>
    intro p q np hp hq
    rcases hold p np hp with hs | ⟨hunused, -, hrest⟩
    · rcases hold q np hq with hs' | ⟨hunused, -, -⟩
      · exact h.unique p q np hs hs'
      · rw [h.embryo p np hs] at hunused
        cases hunused
    · by_contra hpq
      rw [hrest q (Ne.symm hpq)] at hq
      rw [h.embryo q np hq] at hunused
      cases hunused
  case own =>
    intro p i hp
    rcases hmove.pc with hpc | ⟨q, pc, hrun, hpc, -, hreads⟩
    · rw [hpc] at hp
      exact h.own p i hp
    · by_cases hpq : p = q
      · rw [hpq, hpc, Function.update_self] at hp
        rcases hreads with hn | hs | ⟨j, hj, hpid⟩
        · rw [hn] at hp; cases hp
        · rw [hpq]
          exact h.own q i (by rw [← hs, hp])
        · rw [hj] at hp
          cases hp
          have hq0 : s.pid q ≠ 0 := h.inUse q (by rw [hrun]; exact nofun)
          rw [hpq]
          exact (h.tickets.unique q i hq0 hpid.symm).symm
      · rw [hpc, Function.update_of_ne hpq] at hp
        exact h.own p i hp

/-- Only the owner of a queue can empty it, by returning from `recv`. -/
theorem front (h : Base s) (hmove : PcMove s a t) {r : Slot} (hr : (s.queue r).front ≠ none) :
    (t.queue r).front ≠ none ∨ (s.pc r).reads = some r ∧ t.pc r = .user := by
  rcases hmove.msgs with hm | ⟨p, i, rp, m, temp, -, -, -, -, hm⟩ | ⟨p, i, u, -, hreads, hu, hpc, hm⟩
  · rw [hm.queue]
    exact .inl hr
  · refine .inl ?_
    rw [hm.queue]
    simp only [Sys.enqueue, Function.update_apply]
    split_ifs with hri
    · rw [hri] at hr
      exact enQueue_front hr
    · exact hr
  · have hip : i = p := h.own p i hreads
    by_cases hrp : r = p
    · exact .inr ⟨by rw [hrp, hreads, hip], by rw [hpc, hrp, Function.update_self]⟩
    · refine .inl ?_
      rw [hm.queue]
      unfold Sys.dequeue at hu
      split at hu <;> cases hu
      dsimp only
      rwa [Function.update_of_ne (hip ▸ hrp)]

end Base

/-! ### Runs -/

theorem Booted.base (h : Booted s) : Base s := by
  obtain ⟨node, rfl⟩ := h
  have hpid : (boot node).pid = Function.update (fun _ => 0) 0 1 := by
    funext p
    simp only [Sys.pid, boot, userinit, Function.update_apply]
    split_ifs <;> rfl
  have hzero : Tickets (fun _ : Slot => (0 : ℤ)) 1 :=
    ⟨fun _ => ⟨le_rfl, by omega⟩, fun _ _ h0 => absurd rfl h0⟩
  refine ⟨?_, fun p hp => ?_, fun p np hp => (by cases hp), fun p q np hp => (by cases hp),
    fun p i hp => (by cases hp)⟩
  · rw [hpid]
    exact hzero.give 0
  · rw [hpid, Function.update_apply]
    split_ifs with h0
    · decide
    · refine absurd ?_ hp
      simp [Sys.state, boot, userinit, h0, zeroProc]

theorem Base.of_reach {guard : Sys → Act → Prop} (hs : Reach Message.step guard Booted s) :
    Base s :=
  hs.invariant (fun _ => Booted.base) fun _ _ _ h _ ht => h.step ht

/-- The nodes of all queues are represented. -/
def Represented (s : Sys) : Prop := ∃ l, Queues s.mem s.queue l

theorem Represented.step (h : Represented s) (ht : Message.step s a = .ok t) : Represented t := by
  obtain ⟨l, h⟩ := h
  rcases (step_pcMove ht).msgs with hm | ⟨p, i, rp, m, temp, -, hfresh, -, -, hm⟩ |
    ⟨p, i, u, -, -, hu, -, hm⟩
  · exact ⟨l, by rw [hm.mem, hm.queue]; exact h⟩
  · obtain ⟨li, hq, -⟩ := h.enQueue i m hfresh
    exact ⟨_, by rw [hm.mem, hm.queue]; exact hq⟩
  · have hfront : (s.queue i).front ≠ none := by
      intro hn
      rw [dequeue_eq_none.mpr hn] at hu
      cases hu
    cases hl : l i with
    | nil => exact absurd ((h.rep i).nil_iff_front.mp hl) hfront
    | cons x li =>
      obtain ⟨m', qi, hdeq, hq⟩ := h.deQueue hl
      unfold Sys.dequeue at hu
      rw [hdeq] at hu
      cases hu
      exact ⟨_, by rw [hm.mem, hm.queue]; exact hq⟩

theorem Booted.represented (h : Booted s) : Represented s := by
  obtain ⟨node, rfl⟩ := h
  exact ⟨fun _ => [], fun i => .empty rfl, fun i j _ p hp => (nomatch hp),
    fun i j _ hne => absurd rfl hne⟩

theorem Represented.of_reach {guard : Sys → Act → Prop}
    (hs : Reach Message.step guard Booted s) : Represented s :=
  hs.invariant (fun _ => Booted.represented) fun _ _ _ h _ ht => h.step ht

end Xv6Container.Message
