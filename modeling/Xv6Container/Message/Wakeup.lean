import Xv6Container.Message.Delivery

/-! Lost wakeups. A receiver that finds its queue empty sets its `request` flag and goes to
sleep, in two more steps; a sender queues its message, tests the flag, clears it and wakes
the receiver, each in a step of its own. The message is lost on a sleeping receiver when
the sender tests the flag before the receiver has set it, or wakes the receiver before it
sleeps. In every run without such a step somebody is on the way to wake it. -/

namespace Xv6Container.Message

open Lib

variable {s t : Sys} {a : Act}

/-! ### The property and the condition -/

/-- Whenever a receiver sleeps in `recv` and its queue is not empty, a sender is between
its `enQueue` and the return of its `sending`. -/
def NoLostWakeup (s : Sys) : Prop :=
  ∀ r, (s.pc r).again → s.state r = .sleeping → (s.queue r).front ≠ none →
    ∃ q, (s.pc q).inFlight = some r

/-- No sender finds the flag clear while the receiver is about to set it, and none wakes
the receiver while it is between its failed `deQueue` and its sleep. -/
def SeesReceiver (s : Sys) : Act → Prop
  | .step p _ =>
    match s.pc p with
    | .sendTest i => s.request i = false → s.pc i ≠ .recvRequest i
    | .sendWake i => s.pc i ≠ .recvRequest i ∧ s.pc i ≠ .recvSleep i
    | _ => True
  | _ => True

/-! ### The invariant -/

/-- The receiver has found its queue empty and has not been woken since. -/
def Sys.Waits (s : Sys) (r : Slot) : Prop :=
  s.pc r = .recvRequest r ∨ s.pc r = .recvSleep r ∨ s.pc r = .recvAgain r ∧ s.state r = .sleeping

/-- A receiver that has set its flag still has it set, or a sender is about to wake it; and
a receiver that waits with a message in its queue has a sender in flight. -/
structure Alert (s : Sys) : Prop where
  chan : ∀ r, s.pc r = .recvAgain r → s.state r = .sleeping → s.chan r = some (.proc r)
  flag : ∀ r, s.Waits r → s.pc r ≠ .recvRequest r →
    s.request r = true ∨ ∃ q, s.pc q = .sendWake r
  sender : ∀ r, s.Waits r → (s.queue r).front ≠ none → ∃ q, (s.pc q).inFlight = some r

/-! ### What a step does to a channel -/

theorem Table.setProc_chan (x : Table) (p q : Slot) (f : Proc → Proc)
    (h : q = p → (f (x.proc p)).chan = (x.proc p).chan) :
    ((x.setProc p f).proc q).chan = (x.proc q).chan := by
  simp only [Table.setProc, Function.update_apply]
  split_ifs with hq
  · rw [h hq, hq]
  · rfl

theorem Table.setState_chan (x : Table) (p q : Slot) (st : ProcState) :
    ((x.setState p st).proc q).chan = (x.proc q).chan :=
  x.setProc_chan p q _ fun _ => rfl

theorem Table.setParent_chan (x : Table) (p q parent : Slot) :
    ((x.setParent p parent).proc q).chan = (x.proc q).chan :=
  x.setProc_chan p q _ fun _ => rfl

theorem Table.reap_chan (x : Table) (p q : Slot) : ((x.reap p).proc q).chan = (x.proc q).chan :=
  x.setProc_chan p q _ fun _ => rfl

theorem Table.sleepOn_chan (x : Table) {p q : Slot} (chan : Chan) (h : q ≠ p) :
    ((x.sleepOn p chan).proc q).chan = (x.proc q).chan :=
  x.setProc_chan p q _ fun hq => absurd hq h

theorem Table.exitLocked_chan (x : Table) (p q : Slot) :
    ((x.exitLocked p).proc q).chan = (x.proc q).chan := by
  have hparent : ((x.wakeupParent p).proc q).chan = (x.proc q).chan := by
    unfold Table.wakeupParent
    split
    · rfl
    · exact Table.wakeup1_chan _ _ _
  have hreparent : (((x.wakeupParent p).reparent p).proc q).chan = (x.proc q).chan := by
    rw [← hparent]
    simp only [Table.reparent]
    split_ifs <;> rfl
  simp only [Table.exitLocked, Table.setState]
  rw [Table.setProc_chan _ _ _ _ fun _ => rfl]
  split_ifs
  · rw [Table.wakeup1_chan, hreparent]
  · exact hreparent

theorem Table.kill_chan (x : Table) (pid : ℤ) (q : Slot) :
    ((x.kill pid).2.proc q).chan = (x.proc q).chan := by
  unfold Table.kill
  split
  · rfl
  · dsimp only
    exact x.setProc_chan _ q _ fun _ => rfl

theorem section_chan {p r : Slot} {e : Env} (hr : r ≠ p) (h : sectionStep s p e = .ok t) :
    t.chan r = s.chan r := by
  unfold sectionStep at h
  split at h
  next => cases h
  next =>
    split at h
    next => cases h
    next => cases h; rfl
    next np x hx =>
      cases h
      obtain ⟨-, rfl⟩ := Table.allocproc_some hx
      exact s.t.setProc_chan np r
        (fun q => { q with state := .embryo, pid := s.t.nextpid }) fun _ => rfl
  next =>
    split_ifs at h <;> cases h
    · rfl
    · exact Table.setState_chan _ _ _ _
  next =>
    split_ifs at h <;> cases h
    · rfl
    · exact Table.setState_chan _ _ _ _
  next => cases h; exact Table.setParent_chan _ _ _ _
  next => cases h; exact Table.setState_chan _ _ _ _
  next => cases h; exact Table.exitLocked_chan _ _ _
  next =>
    split at h
    next => cases h; exact Table.reap_chan _ _ _
    next => cases h; rfl
    next => cases h; exact Table.sleepOn_chan _ _ hr
  next => split at h <;> cases h <;> rfl
  next => split_ifs at h; cases h; rfl
  next => split_ifs at h <;> cases h <;> rfl
  next => cases h; rfl
  next => cases h; exact Table.wakeup1_chan _ _ _
  next => split at h <;> cases h <;> rfl
  next =>
    split at h
    next => cases h; rfl
    next u hu => cases h; simp only [Sys.chan, Sys.back, dequeue_table hu]
  next => cases h; rfl
  next => cases h; exact Table.sleepOn_chan _ _ hr
  next =>
    split at h
    next => cases h; rfl
    next u hu => cases h; simp only [Sys.chan, Sys.back, dequeue_table hu]

/-- A process that does not run keeps its channel. -/
theorem step_chan {r : Slot} (hr : s.state r ≠ .running) (h : step s a = .ok t) :
    t.chan r = s.chan r := by
  have hne : ∀ p, s.state p = .running → r ≠ p := by
    rintro p hp rfl
    exact hr hp
  cases a with
  | call p c =>
    simp only [step] at h
    split_ifs at h
    cases c with
    | fork | wait | send | recv => cases h; rfl
    | exit => simp only [callStep] at h; split_ifs at h; cases h; rfl
    | kill pid => cases h; exact Table.kill_chan _ _ _
  | step p e =>
    simp only [step] at h
    split_ifs at h with hrun
    exact section_chan (hne p hrun) h
  | yield p =>
    simp only [step] at h
    split_ifs at h
    cases h
    exact Table.setState_chan _ _ _ _
  | sleep p addr =>
    simp only [step] at h
    split_ifs at h with hrun
    cases h
    exact Table.sleepOn_chan _ _ (hne p hrun.1)
  | wakeup addr => cases h; exact Table.wakeup1_chan _ _ _
  | sched n =>
    simp only [step] at h
    split at h
    next => cases h
    next x u hsched =>
      cases h
      unfold schedStep at hsched
      split_ifs at hsched
      split at hsched
      · cases hsched; rfl
      · cases hsched; exact Table.setState_chan _ _ _ _

/-! ### Receivers and senders across a step -/

/-- A place in `recv` after the first `deQueue` is reached from the one before it. -/
theorem PcMove.reads_before (h : PcMove s a t) {r : Slot} :
    (t.pc r = .recvRequest r → s.pc r = .recvRequest r ∨
      s.pc r = .recvDequeue r ∧ (t.queue r).front = none) ∧
    (t.pc r = .recvSleep r → s.pc r = .recvSleep r ∨
      s.pc r = .recvRequest r ∧ t.request r = true) ∧
    (t.pc r = .recvAgain r → s.pc r = .recvAgain r ∨
      s.pc r = .recvSleep r ∧ t.chan r = some (.proc r)) := by
  have hcase : ∀ {p : Slot} {pc : Pc}, t.pc = Function.update s.pc p pc → pc.reads = none →
      ∀ {x : Pc}, x.reads = some r → t.pc r = x → s.pc r = x := by
    intro p pc heq hpc x hx hr
    rw [heq, Function.update_apply] at hr
    split_ifs at hr
    · rw [← hr, hpc] at hx
      cases hx
    · exact hr
  have hlift : (∀ {x : Pc}, x.reads = some r → t.pc r = x → s.pc r = x) →
      (t.pc r = .recvRequest r → s.pc r = .recvRequest r ∨
        s.pc r = .recvDequeue r ∧ (t.queue r).front = none) ∧
      (t.pc r = .recvSleep r → s.pc r = .recvSleep r ∨
        s.pc r = .recvRequest r ∧ t.request r = true) ∧
      (t.pc r = .recvAgain r → s.pc r = .recvAgain r ∨
        s.pc r = .recvSleep r ∧ t.chan r = some (.proc r)) :=
    fun h => ⟨fun hr => .inl (h rfl hr), fun hr => .inl (h rfl hr), fun hr => .inl (h rfl hr)⟩
  cases h with
  | stay pc => exact hlift fun _ hr => by rwa [← pc]
  | plain p pc _ eq _ _ _ _ new => exact hlift (hcase eq new.2)
  | alloc _ _ _ _ _ _ _ eq | reap _ _ _ _ _ eq | enqueue _ _ _ _ _ _ _ _ eq | quit _ _ _ _ _ _ eq
  | tested _ _ _ _ eq | cleared _ _ _ _ eq | woke _ _ _ _ eq | took _ _ _ _ _ _ eq
  | missedAgain _ _ _ _ _ eq => exact hlift (hcase eq rfl)
  | lookup p i _ _ _ eq =>
    by_cases hrp : r = p
    · rw [eq, hrp, Function.update_self]
      exact ⟨nofun, nofun, nofun⟩
    · exact hlift fun _ hr => by rwa [eq, Function.update_of_ne hrp] at hr
  | missed p i _ old empty eq msgs =>
    by_cases hrp : r = p
    · subst hrp
      rw [eq, Function.update_self]
      refine ⟨fun hr => ?_, nofun, nofun⟩
      cases hr
      exact .inr ⟨old, by rw [msgs.queue, empty]⟩
    · exact hlift fun _ hr => by rwa [eq, Function.update_of_ne hrp] at hr
  | requested p i _ old eq _ _ request =>
    by_cases hrp : r = p
    · subst hrp
      rw [eq, Function.update_self]
      refine ⟨nofun, fun hr => ?_, nofun⟩
      cases hr
      exact .inr ⟨old, by rw [request, Function.update_self]⟩
    · exact hlift fun _ hr => by rwa [eq, Function.update_of_ne hrp] at hr
  | slept p i _ old eq _ _ _ _ chan =>
    by_cases hrp : r = p
    · subst hrp
      rw [eq, Function.update_self]
      refine ⟨nofun, nofun, fun hr => ?_⟩
      cases hr
      exact .inr ⟨old, chan⟩
    · exact hlift fun _ hr => by rwa [eq, Function.update_of_ne hrp] at hr

/-- A sender in flight stays so, or it finds the flag clear, or it wakes the receiver. -/
theorem PcMove.inFlight_after (h : PcMove s a t) {q r : Slot} (hq : (s.pc q).inFlight = some r) :
    (t.pc q).inFlight = some r ∧ (s.pc q = .sendWake r → t.pc q = .sendWake r) ∨
    (∃ e, a = .step q e) ∧ (∀ p, p ≠ q → t.pc p = s.pc p) ∧
      (s.pc q = .sendTest r ∧ s.request r = false ∨
        s.pc q = .sendWake r ∧ ∀ p, s.chan p = some (.proc r) → t.state p ≠ .sleeping) := by
  have hcase : ∀ {p : Slot} {pc : Pc}, t.pc = Function.update s.pc p pc →
      (s.pc p).inFlight = none → (t.pc q).inFlight = some r ∧
        (s.pc q = .sendWake r → t.pc q = .sendWake r) := by
    intro p pc heq hp
    have hqp : q ≠ p := by
      rintro rfl
      rw [hq] at hp
      cases hp
    rw [heq, Function.update_of_ne hqp]
    exact ⟨hq, id⟩
  cases h with
  | stay pc => rw [pc]; exact .inl ⟨hq, id⟩
  | plain p pc _ eq _ _ _ old => exact .inl (hcase eq old.1)
  | alloc p _ _ old _ _ _ eq | reap p _ _ old _ eq | lookup p _ _ old _ eq
  | enqueue p _ _ _ _ _ old _ eq | missed p _ _ old _ eq | missedAgain p _ _ old _ eq
  | requested p _ _ old eq | slept p _ _ old eq => exact .inl (hcase eq (by rw [old]; rfl))
  | took p _ _ _ old _ eq =>
    refine .inl (hcase eq ?_)
    rcases old with old | old <;> rw [old] <;> rfl
  | quit p i _ old act clear eq =>
    by_cases hqp : q = p
    · subst hqp
      rw [old] at hq
      cases hq
      exact .inr ⟨act, fun x hx => by rw [eq, Function.update_of_ne hx], .inl ⟨old, clear⟩⟩
    · rw [eq, Function.update_of_ne hqp]
      exact .inl ⟨hq, id⟩
  | woke p i _ old eq _ _ _ act awake =>
    by_cases hqp : q = p
    · subst hqp
      rw [old] at hq
      cases hq
      exact .inr ⟨act, fun x hx => by rw [eq, Function.update_of_ne hx], .inr ⟨old, awake⟩⟩
    · rw [eq, Function.update_of_ne hqp]
      exact .inl ⟨hq, id⟩
  | tested p i _ old eq | cleared p i _ old eq =>
    refine .inl ?_
    by_cases hqp : q = p
    · subst hqp
      rw [old] at hq ⊢
      cases hq
      rw [eq, Function.update_self]
      exact ⟨rfl, nofun⟩
    · rw [eq, Function.update_of_ne hqp]
      exact ⟨hq, id⟩

/-- A queue that is no longer empty has its sender in flight. -/
theorem PcMove.filled (h : PcMove s a t) {r : Slot} (hs : (s.queue r).front = none)
    (ht : (t.queue r).front ≠ none) : ∃ q, (t.pc q).inFlight = some r := by
  rcases h.msgs with hm | ⟨p, i, rp, m, temp, -, -, hpc, -, hm⟩ | ⟨p, i, u, -, -, hu, -, hm⟩
  · rw [hm.queue] at ht
    exact absurd hs ht
  · refine ⟨p, ?_⟩
    by_cases hri : r = i
    · rw [hpc, Function.update_self, hri]
      rfl
    · simp only [hm.queue, Sys.enqueue, Function.update_of_ne hri] at ht
      exact absurd hs ht
  · by_cases hri : r = i
    · rw [hri] at hs
      rw [dequeue_eq_none.mpr hs] at hu
      cases hu
    · rw [hm.queue] at ht
      unfold Sys.dequeue at hu
      split at hu <;> cases hu
      dsimp only at ht
      rw [Function.update_of_ne hri] at ht
      exact absurd hs ht

/-- The flag is cleared only by a sender that then wakes the receiver. -/
theorem PcMove.flag_after (h : PcMove s a t) {r : Slot} (hr : s.request r = true) :
    t.request r = true ∨ ∃ q, t.pc q = .sendWake r := by
  cases h with
  | cleared p i _ _ eq _ _ request =>
    by_cases hri : r = i
    · exact .inr ⟨p, by rw [eq, hri, Function.update_self]⟩
    · rw [request, Function.update_of_ne hri]
      exact .inl hr
  | requested p i _ _ _ _ _ request =>
    rw [request, Function.update_apply]
    split_ifs
    · exact .inl rfl
    · exact .inl hr
  | stay _ _ _ request | plain _ _ _ _ _ _ request | alloc _ _ _ _ _ _ _ _ _ request
  | reap _ _ _ _ _ _ _ request | lookup _ _ _ _ _ _ _ _ request
  | enqueue _ _ _ _ _ _ _ _ _ _ _ _ request | quit _ _ _ _ _ _ _ _ _ request
  | tested _ _ _ _ _ _ _ request | woke _ _ _ _ _ _ _ request
  | took _ _ _ _ _ _ _ _ _ _ request | missed _ _ _ _ _ _ _ _ request
  | missedAgain _ _ _ _ _ _ _ _ request | slept _ _ _ _ _ _ _ request =>
    rw [request]
    exact .inl hr

/-- A process asleep after its `sleep` in `recv` was asleep before. -/
theorem StateMove.asleep_before {r : Slot} (h : StateMove s a t r) (hpc : t.pc r = .recvAgain r)
    (hs : s.pc r = .recvAgain r) (ht : t.state r = .sleeping) : s.state r = .sleeping := by
  cases h with
  | same eq => rw [← eq, ht]
  | left _ _ asleep =>
    rcases asleep ht with hno | ⟨i, hi⟩
    · rw [hpc] at hno; cases hno
    · rw [hs] at hi; cases hi
  | woken _ new | chosen _ new | allocated _ new | reaped _ new => rw [ht] at new; cases new
  | released _ _ _ new => rcases new with new | new <;> rw [ht] at new <;> cases new

/-- A receiver that waits waited before, or it has just found its queue empty. -/
theorem waits_before (ht : step s a = .ok t) {r : Slot} (hw : t.Waits r) :
    s.Waits r ∧ (t.pc r ≠ .recvRequest r → s.pc r = .recvRequest r → t.request r = true) ∨
      t.pc r = .recvRequest r ∧ (t.queue r).front = none := by
  obtain ⟨hrequest, hsleep, hagain⟩ := (step_pcMove ht).reads_before (r := r)
  rcases hw with hw | hw | ⟨hw, hstate⟩
  · rcases hrequest hw with hs | ⟨-, hempty⟩
    · exact .inl ⟨.inl hs, fun hne => absurd hw hne⟩
    · exact .inr ⟨hw, hempty⟩
  · rcases hsleep hw with hs | ⟨hs, hflag⟩
    · refine .inl ⟨.inr (.inl hs), fun _ hs' => ?_⟩
      rw [hs] at hs'
      cases hs'
    · exact .inl ⟨.inl hs, fun _ _ => hflag⟩
  · rcases hagain hw with hs | ⟨hs, -⟩
    · refine .inl ⟨.inr (.inr ⟨hs, (step_state ht r).asleep_before hw hs hstate⟩), fun _ hs' => ?_⟩
      rw [hs] at hs'
      cases hs'
    · refine .inl ⟨.inr (.inl hs), fun _ hs' => ?_⟩
      rw [hs] at hs'
      cases hs'

namespace Alert

/-- A sender that wakes its receiver does so while the receiver sleeps, and the receiver
waits no longer. -/
theorem woken (h : Alert s) (hg : SeesReceiver s a) (ht : Message.step s a = .ok t) {q r : Slot}
    {e : Env} (hact : a = .step q e) (hq : s.pc q = .sendWake r)
    (hrest : ∀ p, p ≠ q → t.pc p = s.pc p)
    (hawake : ∀ p, s.chan p = some (.proc r) → t.state p ≠ .sleeping) (hw : s.Waits r) :
    ¬ t.Waits r := by
  subst hact
  simp only [SeesReceiver, hq] at hg
  obtain ⟨hs, hstate⟩ : s.pc r = .recvAgain r ∧ s.state r = .sleeping := by
    rcases hw with hw | hw | hw
    · exact absurd hw hg.1
    · exact absurd hw hg.2
    · exact hw
  have hrq : r ≠ q := by
    rintro rfl
    rw [hs] at hq
    cases hq
  have hpc : t.pc r = .recvAgain r := by rw [hrest r hrq, hs]
  rintro (hw' | hw' | ⟨-, hw'⟩)
  · rw [hpc] at hw'; cases hw'
  · rw [hpc] at hw'; cases hw'
  · exact hawake r (h.chan r hs hstate) hw'

theorem step (h : Alert s) (hg : SeesReceiver s a) (ht : Message.step s a = .ok t) :
    Alert t := by
  have hmove := step_pcMove ht
  refine ⟨fun r hr hstate => ?_, fun r hw hne => ?_, fun r hw hfront => ?_⟩
  · rcases (hmove.reads_before (r := r)).2.2 hr with hs | ⟨-, hchan⟩
    · have hstate' := (step_state ht r).asleep_before hr hs hstate
      rw [step_chan (by rw [hstate']; exact nofun) ht]
      exact h.chan r hs hstate'
    · exact hchan
  · rcases waits_before ht hw with ⟨hw', hflag⟩ | ⟨hr, -⟩
    · by_cases hs : s.pc r = .recvRequest r
      · exact .inl (hflag hne hs)
      · rcases h.flag r hw' hs with hreq | ⟨q, hq⟩
        · exact hmove.flag_after hreq
        · rcases hmove.inFlight_after (q := q) (r := r) (by rw [hq]; rfl) with
            ⟨-, hstay⟩ | ⟨⟨e, hact⟩, hrest, ⟨htest, -⟩ | ⟨-, hawake⟩⟩
          · exact .inr ⟨q, hstay hq⟩
          · rw [hq] at htest; cases htest
          · exact absurd hw (h.woken hg ht hact hq hrest hawake hw')
    · exact absurd hr hne
  · rcases waits_before ht hw with ⟨hw', -⟩ | ⟨-, hempty⟩
    · by_cases hf : (s.queue r).front = none
      · exact hmove.filled hf hfront
      · obtain ⟨q, hq⟩ := h.sender r hw' hf
        rcases hmove.inFlight_after hq with
          ⟨hstay, -⟩ | ⟨⟨e, hact⟩, hrest, ⟨htest, hclear⟩ | ⟨hwake, hawake⟩⟩
        · exact ⟨q, hstay⟩
        · -- the flag is clear, so another sender is about to wake the receiver
          have hs : s.pc r ≠ .recvRequest r := by
            subst hact
            simp only [SeesReceiver, htest] at hg
            exact hg hclear
          rcases h.flag r hw' hs with hreq | ⟨q', hq'⟩
          · rw [hclear] at hreq; cases hreq
          · have hne : q' ≠ q := by
              rintro rfl
              rw [htest] at hq'
              cases hq'
            exact ⟨q', by rw [hrest q' hne, hq']; rfl⟩
        · exact absurd hw (h.woken hg ht hact hwake hrest hawake hw')
    · exact absurd hempty hfront

end Alert

/-! ### Runs -/

theorem Booted.alert (h : Booted s) : Alert s := by
  obtain ⟨node, rfl⟩ := h
  have hnot : ∀ r, ¬ (boot node).Waits r := by
    rintro r (hr | hr | ⟨hr, -⟩) <;> cases hr
  exact ⟨fun r hr => (nomatch hr), fun r hr => absurd hr (hnot r), fun r hr => absurd hr (hnot r)⟩

theorem Alert.noLostWakeup (h : Alert s) (hb : Base s) : NoLostWakeup s := by
  intro r hr hstate hfront
  cases hpc : s.pc r with
  | recvAgain i =>
    have hi : i = r := hb.own r i (by rw [hpc]; rfl)
    subst hi
    exact h.sender i (.inr (.inr ⟨hpc, hstate⟩)) hfront
  | _ => rw [hpc] at hr; cases hr

/-- In every run in which no sender tests the flag of a receiver that is about to set it
and none wakes a receiver that does not sleep yet, no wakeup is lost. -/
theorem noLostWakeup_of_seesReceiver (hs : Reach step SeesReceiver Booted s) :
    NoLostWakeup s := by
  have halert : Alert s := hs.invariant (fun _ => Booted.alert) fun _ _ _ h hg ht => h.step hg ht
  exact halert.noLostWakeup (Base.of_reach hs)

/-! ### A sender between the two accesses to the flag -/

instance (s : Sys) (a : Act) : Decidable (SeesReceiver s a) :=
  match a with
  | .step p _ =>
    match h : s.pc p with
    | .sendTest i => decidable_of_iff (s.request i = false → s.pc i ≠ .recvRequest i)
        (by simp only [SeesReceiver, h])
    | .sendWake i => decidable_of_iff (s.pc i ≠ .recvRequest i ∧ s.pc i ≠ .recvSleep i)
        (by simp only [SeesReceiver, h])
    | .user | .forkAlloc | .forkStack _ | .forkCopy _ | .forkFields _ | .forkPublish _
    | .exiting | .waiting | .sendLookup _ _ | .sendEnqueue _ _ _ | .sendClear _ | .recvLookup
    | .recvDequeue _ | .recvRequest _ | .recvSleep _ | .recvAgain _ =>
      .isTrue (by simp only [SeesReceiver, h])
  | .call _ _ | .yield _ | .sleep _ _ | .wakeup _ | .sched _ => .isTrue trivial

/-- The first process forks a child and calls `recv` up to its failed `deQueue`; then it is
preempted and the child runs. -/
def missRun : List Act :=
  turns 1 ++ .call 0 .fork :: sections 0 5 ++ .call 0 .recv :: sections 0 2 ++ .yield 0 :: turns 1

/-- The receiver sleeps, the child has queued its message and is about to test the flag. -/
theorem noLostWakeup_before_test : ∃ s, s.pc 0 = .recvAgain 0 ∧ s.state 0 = .sleeping ∧
    (s.queue 0).front = some 4096 ∧ NoLostWakeup s := by
  have hboot : Reach step SeesReceiver Booted firstBoot := .start booted_firstBoot
  obtain ⟨s, hs, ht⟩ := hboot.of_endsIn
    (fun s => decide (s.pc 0 = .recvAgain 0) && decide (s.state 0 = .sleeping) &&
      decide ((s.queue 0).front = some 4096))
    (missRun ++ .yield 1 :: turns 2 ++ sections 0 2 ++ turns 1 ++
      .call 1 (.send 1 hello) :: sections 1 2) (by decide +kernel)
  simp only [Bool.and_eq_true, decide_eq_true_eq] at ht
  exact ⟨s, ht.1.1, ht.1.2, ht.2, noLostWakeup_of_seesReceiver hs⟩

/-- The child queues its message and finds the flag clear; then the receiver sets the flag
and sleeps. -/
theorem send_before_request_is_lost : ∃ s, Reach step always Booted s ∧ ¬ NoLostWakeup s := by
  have hboot : Reach step always Booted firstBoot := .start booted_firstBoot
  obtain ⟨s, hs, ht⟩ := hboot.of_endsIn
    (fun s => (s.pc 0).again && decide (s.state 0 = .sleeping) &&
      decide ((s.queue 0).front ≠ none) && decide (∀ q, (s.pc q).inFlight ≠ some 0))
    (missRun ++ .call 1 (.send 1 hello) :: sections 1 3 ++ .yield 1 :: turns 2 ++ sections 0 2)
    (by decide +kernel)
  simp only [Bool.and_eq_true, decide_eq_true_eq] at ht
  obtain ⟨⟨⟨hagain, hstate⟩, hfront⟩, hnone⟩ := ht
  refine ⟨s, hs, fun h => ?_⟩
  obtain ⟨q, hq⟩ := h 0 hagain hstate hfront
  exact hnone q hq

end Xv6Container.Message
