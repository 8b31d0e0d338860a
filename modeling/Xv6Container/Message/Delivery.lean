import Xv6Container.Message.Receivers

/-! What `recv` returns. A call that returns 0 should have taken one message from its queue
and copied it out. It does as long as nobody wakes a process that sleeps in `recv` while
its queue is empty: `recv` sleeps where `wait` sleeps, does not look at its queue again
after it has been woken, and drops the error of its second `deQueue`. The exit of a child,
a `kill`, or a sender that wakes it for a message already taken all make it return 0 with
nothing received. -/

namespace Xv6Container.Message

open Lib

variable {s t : Sys} {a : Act}

/-! ### The property and the condition -/

def Pc.inRecv : Pc → Bool
  | .recvLookup | .recvDequeue _ | .recvRequest _ | .recvSleep _ | .recvAgain _ => true
  | _ => false

/-- A step that returns 0 from `recv` takes the first message from the caller's queue and
copies it out; every other step of `recv` leaves queues and argument as they are. -/
structure RecvOk (s : Sys) : Prop where
  zero : ∀ p e t, (s.pc p).inRecv → step s (.step p e) = .ok t → t.pc p = .user → t.ret p = 0 →
    ∃ x l, Rep s.mem (s.queue p) (x :: l) ∧ Rep t.mem (t.queue p) l ∧
      t.buf p = some (s.mem.msg x) ∧ ∀ i, i ≠ p → t.queue i = s.queue i
  other : ∀ p e t, (s.pc p).inRecv → step s (.step p e) = .ok t →
    ¬ (t.pc p = .user ∧ t.ret p = 0) → t.mem = s.mem ∧ t.queue = s.queue ∧ t.buf = s.buf

/-- Nobody wakes a process that sleeps in `recv` while its queue is empty. -/
def WakesWithMessage (s : Sys) (a : Act) : Prop :=
  ∀ r, (s.pc r).again → s.state r = .sleeping → wakes s a r → (s.queue r).front ≠ none

/-! ### The invariant -/

/-- A process that is back from its sleep in `recv` has a message waiting. -/
def Expecting (s : Sys) : Prop :=
  ∀ r, (s.pc r).again → s.state r = .sleeping ∨ (s.queue r).front ≠ none

/-- A process asleep stays asleep until it is woken. -/
theorem Base.asleep (h : Base s) (hstate : ∀ q, StateMove s a t q) {r : Slot}
    (hr : s.state r = .sleeping) : t.state r = .sleeping ∨ wakes s a r := by
  cases hstate r with
  | same eq => exact .inl (eq.trans hr)
  | woken _ _ source => exact .inr source
  | released p held =>
    rw [h.embryo p r held] at hr
    cases hr
  | chosen old | left old | allocated old | reaped old =>
    rw [hr] at old
    cases old

/-- A process gets to the second `deQueue` by going to sleep. -/
theorem PcMove.again (h : PcMove s a t) {r : Slot} (hr : (t.pc r).again) :
    (s.pc r).again ∨ t.state r = .sleeping := by
  have hcase : ∀ {p : Slot} {pc : Pc}, t.pc = Function.update s.pc p pc → pc.again = false →
      (s.pc r).again ∨ t.state r = .sleeping := by
    intro p pc heq hpc
    rw [heq, Function.update_apply] at hr
    split_ifs at hr
    · rw [hpc] at hr; cases hr
    · exact .inl hr
  cases h with
  | stay pc => exact .inl (by rwa [← pc])
  | plain p pc _ eq _ _ _ _ new =>
    refine hcase eq ?_
    cases pc with
    | recvAgain i => cases new.2
    | _ => rfl
  | slept p i _ _ eq _ _ _ asleep =>
    by_cases hrp : r = p
    · exact .inr (by rw [hrp, asleep])
    · rw [eq, Function.update_of_ne hrp] at hr
      exact .inl hr
  | alloc _ _ _ _ _ _ _ eq | reap _ _ _ _ _ eq | lookup _ _ _ _ _ eq
  | enqueue _ _ _ _ _ _ _ _ eq | quit _ _ _ _ _ _ eq | tested _ _ _ _ eq | cleared _ _ _ _ eq
  | woke _ _ _ _ eq | took _ _ _ _ _ _ eq | missed _ _ _ _ _ eq | missedAgain _ _ _ _ _ eq
  | requested _ _ _ _ eq => exact hcase eq rfl

theorem Expecting.step (h : Expecting s) (hb : Base s) (hg : WakesWithMessage s a)
    (ht : Message.step s a = .ok t) : Expecting t := by
  intro r hr
  have hmove := step_pcMove ht
  rcases hmove.again hr with hs | hs
  · have hkeep : (s.queue r).front ≠ none → (t.queue r).front ≠ none := by
      intro hf
      rcases hb.front hmove hf with hf' | ⟨-, hu⟩
      · exact hf'
      · rw [hu] at hr; cases hr
    rcases h r hs with hsleep | hf
    · rcases hb.asleep (step_state ht) hsleep with hsleep' | hw
      · exact .inl hsleep'
      · exact .inr (hkeep (hg r hs hsleep hw))
    · exact .inr (hkeep hf)
  · exact .inl hs

/-! ### Returns -/

/-- A `deQueue` that succeeds takes the first node. -/
theorem dequeue_takes (hrep : Represented s) {p : Slot} {u : Sys} (h : s.dequeue p p = some u) :
    ∃ x l, Rep s.mem (s.queue p) (x :: l) ∧ Rep u.mem (u.queue p) l ∧
      u.buf p = some (s.mem.msg x) ∧ ∀ i, i ≠ p → u.queue i = s.queue i := by
  obtain ⟨l, hq⟩ := hrep
  have hfront : (s.queue p).front ≠ none := by
    intro hn
    rw [dequeue_eq_none.mpr hn] at h
    cases h
  cases hl : l p with
  | nil => exact absurd ((hq.rep p).nil_iff_front.mp hl) hfront
  | cons x li =>
    obtain ⟨m', qi, hdeq, hq'⟩ := hq.deQueue hl
    have hold := hq.rep p
    have hnew := hq'.rep p
    rw [hl] at hold
    rw [Function.update_self, Function.update_self] at hnew
    unfold Sys.dequeue at h
    rw [hdeq] at h
    cases h
    refine ⟨x, li, hold, by simpa using hnew, by simp, fun i hi => ?_⟩
    exact Function.update_of_ne hi _ _

theorem Expecting.recvOk (h : Expecting s) (hb : Base s) (hrep : Represented s) : RecvOk s := by
  refine ⟨fun p e t hp ht hpc hret => ?_, fun p e t hp ht hnot => ?_⟩
  · have hown : ∀ i, (s.pc p).reads = some i → i = p := hb.own p
    simp only [Message.step] at ht
    split_ifs at ht with hrun
    unfold sectionStep at ht
    cases hs : s.pc p with
    | recvLookup =>
      rw [hs] at ht
      dsimp only at ht
      split at ht <;> cases ht
      · simp [Sys.back] at hret
      · simp [Sys.goto] at hpc
    | recvDequeue i =>
      have hi : i = p := hown i (by rw [hs]; rfl)
      subst hi
      rw [hs] at ht
      dsimp only at ht
      split at ht
      · cases ht
        simp [Sys.goto] at hpc
      next u hu =>
        cases ht
        obtain ⟨x, l, hold, hnew, hbuf, hrest⟩ := dequeue_takes hrep hu
        exact ⟨x, l, hold, hnew, hbuf, hrest⟩
    | recvRequest i =>
      rw [hs] at ht
      cases ht
      simp [Sys.goto, Sys.setRequest] at hpc
    | recvSleep i =>
      rw [hs] at ht
      cases ht
      simp [Sys.offCpu, Sys.goto, Sys.withTable] at hpc
    | recvAgain i =>
      have hi : i = p := hown i (by rw [hs]; rfl)
      subst hi
      rw [hs] at ht
      dsimp only at ht
      split at ht
      next hn =>
        -- the process runs, so it has been woken with a message in its queue
        rcases h i (by rw [hs]; rfl) with hsleep | hf
        · rw [hrun] at hsleep; cases hsleep
        · exact absurd (dequeue_eq_none.mp hn) hf
      next u hu =>
        cases ht
        obtain ⟨x, l, hold, hnew, hbuf, hrest⟩ := dequeue_takes hrep hu
        exact ⟨x, l, hold, hnew, hbuf, hrest⟩
    | _ => rw [hs] at hp; cases hp
  · simp only [Message.step] at ht
    split_ifs at ht
    unfold sectionStep at ht
    cases hs : s.pc p with
    | recvLookup =>
      rw [hs] at ht
      dsimp only at ht
      split at ht <;> cases ht <;> exact ⟨rfl, rfl, rfl⟩
    | recvDequeue i =>
      rw [hs] at ht
      dsimp only at ht
      split at ht <;> cases ht
      · exact ⟨rfl, rfl, rfl⟩
      · exact absurd ⟨by simp [Sys.back], by simp [Sys.back]⟩ hnot
    | recvRequest i | recvSleep i =>
      rw [hs] at ht
      cases ht
      exact ⟨rfl, rfl, rfl⟩
    | recvAgain i =>
      rw [hs] at ht
      dsimp only at ht
      split at ht <;> cases ht <;> exact absurd ⟨by simp [Sys.back], by simp [Sys.back]⟩ hnot
    | _ => rw [hs] at hp; cases hp

/-! ### Runs -/

theorem Booted.expecting (h : Booted s) : Expecting s := by
  obtain ⟨node, rfl⟩ := h
  exact fun r hr => nomatch hr

/-- In every run in which nobody wakes a process from `recv` while its queue is empty, a
`recv` that returns 0 has received exactly one message. -/
theorem recvOk_of_wakesWithMessage (hs : Reach step WakesWithMessage Booted s) : RecvOk s := by
  have hb : ∀ u, Reach step WakesWithMessage Booted u → Base u := fun u hu => Base.of_reach hu
  have hexp : Expecting s := by
    induction hs with
    | start h => exact h.expecting
    | next hs hg ht ih => exact ih.step (hb _ hs) hg ht
  exact hexp.recvOk (hb s hs) (Represented.of_reach hs)

/-! ### A child that exits -/

instance (s : Sys) (a : Act) (r : Slot) : Decidable (wakes s a r) :=
  match a with
  | .call _ (.kill pid) => inferInstanceAs (Decidable (s.t.pidToProcid pid = some r))
  | .step p _ =>
    match h : s.pc p with
    | .exiting => decidable_of_iff
        ((∃ q, (s.t.proc p).parent = some q ∧ s.chan r = some (.proc q)) ∨
          (s.t.wakeupParent p).hasZombieChild p = true ∧ s.chan r = some (.proc s.t.initproc))
        (by simp only [wakes, h])
    | .sendWake i => decidable_of_iff (s.chan r = some (.proc i)) (by simp only [wakes, h])
    | .user | .forkAlloc | .forkStack _ | .forkCopy _ | .forkFields _ | .forkPublish _ | .waiting
    | .sendLookup _ _ | .sendEnqueue _ _ _ | .sendTest _ | .sendClear _ | .recvLookup
    | .recvDequeue _ | .recvRequest _ | .recvSleep _ | .recvAgain _ =>
      .isFalse (by simp only [wakes, h, not_false_iff])
  | .wakeup addr => inferInstanceAs (Decidable (s.chan r = some (.other addr)))
  | .call _ .fork | .call _ .exit | .call _ .wait | .call _ (.send _ _) | .call _ .recv
  | .yield _ | .sleep _ _ | .sched _ => .isFalse id

instance (s : Sys) (a : Act) : Decidable (WakesWithMessage s a) :=
  inferInstanceAs (Decidable (∀ r, (s.pc r).again → s.state r = .sleeping → wakes s a r →
    (s.queue r).front ≠ none))

/-- The machine whose free pages are all zero. -/
def firstBoot : Sys := boot fun _ => ⟨Vector.replicate MSGSIZE 0, none⟩

theorem booted_firstBoot : Booted firstBoot := ⟨_, rfl⟩

/-- A step with page `n` free and enough memory. -/
def sectionsWith (page : Page) (p : Slot) (n : ℕ) : List Act :=
  List.replicate n (.step p ⟨some page, true⟩)

def sections (p : Slot) (n : ℕ) : List Act := sectionsWith 4096 p n

def turns (n : ℕ) : List Act := List.replicate n (.sched 0)

/-- The message `65, 66, …`. -/
def hello : Msg := Vector.ofFn fun i => 65 + UInt8.ofNat i.val

/-- The first process sends itself a message and calls `recv`. -/
theorem recvOk_after_send : ∃ s, s.pc 0 = .recvDequeue 0 ∧ (s.queue 0).front = some 4096 ∧
    RecvOk s := by
  have hboot : Reach step WakesWithMessage Booted firstBoot := .start booted_firstBoot
  obtain ⟨s, hs, ht⟩ := hboot.of_endsIn
    (fun s => decide (s.pc 0 = .recvDequeue 0) && decide ((s.queue 0).front = some 4096))
    (turns 1 ++ .call 0 (.send 1 hello) :: sections 0 3 ++ .call 0 .recv :: sections 0 1)
    (by decide +kernel)
  simp only [Bool.and_eq_true, decide_eq_true_eq] at ht
  exact ⟨s, ht.1, ht.2, recvOk_of_wakesWithMessage hs⟩

/-- The first process forks a child and sleeps in `recv`; the child exits. -/
def childExitRun : List Act :=
  turns 1 ++ .call 0 .fork :: sections 0 5 ++ .call 0 .recv :: sections 0 4 ++ turns 1 ++
  .call 1 .exit :: sections 1 1 ++ turns 2

/-- The exit of the child wakes its parent, whose `recv` returns 0 with nothing received. -/
theorem child_exit_ends_recv : ∃ s, Reach step always Booted s ∧ ¬ RecvOk s := by
  have hboot : Reach step always Booted firstBoot := .start booted_firstBoot
  obtain ⟨s, hs, ht⟩ := hboot.of_endsIn
    (fun s => (s.pc 0).inRecv && match step s (.step 0 ⟨none, true⟩) with
      | .ok t => decide (t.pc 0 = .user) && decide (t.ret 0 = 0) && decide (t.buf 0 = none)
      | .error _ => false)
    childExitRun (by decide +kernel)
  rw [Bool.and_eq_true] at ht
  obtain ⟨hrecv, ht⟩ := ht
  split at ht
  next t hstep =>
    simp only [Bool.and_eq_true, decide_eq_true_eq] at ht
    obtain ⟨⟨hpc, hret⟩, hbuf⟩ := ht
    refine ⟨s, hs, fun h => ?_⟩
    obtain ⟨x, l, -, -, hsome, -⟩ := h.zero 0 _ t hrecv hstep hpc hret
    rw [hbuf] at hsome
    cases hsome
  next => cases ht

end Xv6Container.Message
