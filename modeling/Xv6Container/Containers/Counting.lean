import Mathlib.Data.List.FinRange
import Xv6Container.Containers.Parents
import Xv6Container.Lib.Trace

/-! What `ps_print` and `proc_container_num` see. Both go over all of the process table and look
at `containerID` only, which no exit and no `wait` clears: a slot that is UNUSED counts for the
container of the process that had it last, and a slot that nobody has had counts for container 0. -/

namespace Xv6Container.Containers

open Lib

variable {s t : Sys} {a : Act} {p q : Slot}

/-! ### The two scans -/

/-- The table `states` of `ps_print`. -/
def ProcState.name : ProcState → String
  | .unused => "unused"
  | .embryo => "embryo"
  | .sleeping => "sleep "
  | .runnable => "runble"
  | .running => "run   "
  | .zombie => "zombie"
  | .waiting => "waiting"

/-- A line of `ps_print`, without the name of the process. -/
structure PsLine where
  pid : ℤ
  state : String
  container : ℤ
  deriving DecidableEq

namespace Tables

def psLine (t : Tables) (containerID : ℤ) (p : Slot) : PsLine :=
  ⟨(t.proc p).pid, (t.proc p).state.name, containerID⟩

/-- `ps_print`, called by `cur` -/
def psPrint (t : Tables) (cur : Slot) : List PsLine :=
  let containerID := (t.proc cur).containerID
  ((List.finRange NPROC).filter fun p => (t.proc p).containerID == containerID).map
    (t.psLine containerID)

/-- The first loop of `proc_container_num`: it goes on behind a slot with the pid. -/
def pidContainer (t : Tables) (pid : ℤ) : ℤ :=
  (List.finRange NPROC).foldl
    (fun id p => if (t.proc p).pid = pid then (t.proc p).containerID else id) (-1)

/-- The second loop of `proc_container_num`, with `val` counted so far. -/
def countTo (t : Tables) (id pid : ℤ) : ℤ → List Slot → ℤ
  | _, [] => -1
  | val, p :: ps =>
    let val := if (t.proc p).containerID = id then val + 1 else val
    if (t.proc p).pid = pid then val else countTo t id pid val ps

def procContainerNum (t : Tables) (pid : ℤ) : ℤ :=
  t.countTo (t.pidContainer pid) pid 0 (List.finRange NPROC)

end Tables

/-- The slots of container `c` that are in use. -/
def Sys.inUse (s : Sys) (c : ℤ) (q : Slot) : Bool :=
  s.containerID q == c && s.state q != .unused

/-- `ps_print`, called by `p`, prints one line for each process in use of its container. -/
def PsOk (s : Sys) (p : Slot) : Prop :=
  s.t.psPrint p = ((List.finRange NPROC).filter (s.inUse (s.containerID p))).map
    (s.t.psLine (s.containerID p))

/-- `proc_container_num` of the pid in slot `q` counts the processes in use of its container up to
this slot. -/
def NumOk (s : Sys) (q : Slot) : Prop :=
  s.t.procContainerNum (s.pid q) =
    (List.finRange NPROC).countP fun r => s.inUse (s.containerID q) r && decide (r ≤ q)

instance (s : Sys) (p : Slot) : Decidable (PsOk s p) := inferInstanceAs (Decidable (_ = _))

instance (s : Sys) (q : Slot) : Decidable (NumOk s q) := inferInstanceAs (Decidable (_ = _))

/-! ### What the scans count -/

theorem pidContainer_eq (hq : ∀ r, s.pid r = s.pid q → r = q) :
    s.t.pidContainer (s.pid q) = s.containerID q := by
  -- behind slot `q` the loop finds the pid nowhere
  have hloop : ∀ (l : List Slot) (id : ℤ), q ∈ l ∨ id = s.containerID q →
      l.foldl (fun id p => if s.pid p = s.pid q then s.containerID p else id) id =
        s.containerID q := by
    intro l
    induction l with
    | nil =>
      intro id h
      simpa using h
    | cons p l ih =>
      intro id h
      rw [List.foldl_cons]
      apply ih
      by_cases hp : s.pid p = s.pid q
      · rw [if_pos hp, hq p hp]
        exact .inr rfl
      · rw [if_neg hp]
        obtain h | h := h
        · obtain rfl | h := List.mem_cons.1 h
          · exact absurd rfl hp
          · exact .inl h
        · exact .inr h
  exact hloop _ _ (.inl (List.mem_finRange q))

theorem countTo_eq (id val : ℤ) (hq : ∀ r, s.pid r = s.pid q → r = q) {l : List Slot}
    (hl : l.Pairwise (· < ·)) (hmem : q ∈ l) :
    s.t.countTo id (s.pid q) val l =
      val + l.countP fun r => s.containerID r == id && decide (r ≤ q) := by
  induction l generalizing val with
  | nil => exact absurd hmem (by simp)
  | cons p l ih =>
    obtain ⟨hp, hl⟩ := List.pairwise_cons.1 hl
    rw [Tables.countTo]
    change (if s.pid p = s.pid q then _ else _) = _
    by_cases hpq : p = q
    · subst hpq
      have hrest : (l.countP fun r => s.containerID r == id && decide (r ≤ p)) = 0 := by
        rw [List.countP_eq_zero]
        intro r hr
        have := hp r hr
        simp [this]
      rw [if_pos rfl, List.countP_cons, hrest]
      change (if s.containerID p = id then _ else _) = _
      by_cases hid : s.containerID p = id <;> simp [hid]
    · have hmem : q ∈ l := by
        obtain h | h := List.mem_cons.1 hmem
        · exact absurd h.symm hpq
        · exact h
      have hle : p ≤ q := (hp q hmem).le
      rw [if_neg (fun h => hpq (hq p h)), ih _ hl hmem, List.countP_cons]
      change (if s.containerID p = id then _ else _) + _ = _
      by_cases hid : s.containerID p = id
      · simp [hid, hle]
        omega
      · simp [hid]

/-- A filter that asks for more keeps as much only if nothing fails the rest of it. -/
theorem countP_and_eq {α : Type*} {f g : α → Bool} {l : List α} :
    l.countP (fun x => f x && g x) = l.countP f ↔ ∀ x ∈ l, f x = true → g x = true := by
  have hfilter : l.filter (fun x => f x && g x) = (l.filter f).filter g := by
    rw [List.filter_filter]
    refine List.filter_congr fun x _ => ?_
    rw [Bool.and_comm]
  rw [List.countP_eq_length_filter, List.countP_eq_length_filter, hfilter,
    List.length_filter_eq_length_iff]
  simp only [List.mem_filter, and_imp]

theorem psOk_iff : PsOk s p ↔ ∀ q, s.state q = .unused → s.containerID q ≠ s.containerID p := by
  unfold PsOk Tables.psPrint
  change ((List.finRange NPROC).filter fun q => s.containerID q == s.containerID p).map _ = _ ↔ _
  constructor
  · intro h q hq hc
    have hlength := congrArg List.length h
    rw [List.length_map, List.length_map, ← List.countP_eq_length_filter,
      ← List.countP_eq_length_filter] at hlength
    have := countP_and_eq.1 hlength.symm q (List.mem_finRange q) (by simpa using hc)
    simp [hq] at this
  · intro h
    congr 1
    refine List.filter_congr fun q _ => ?_
    unfold Sys.inUse
    by_cases hc : s.containerID q = s.containerID p
    · have : s.state q ≠ .unused := fun hq => h q hq hc
      simp [hc, this]
    · simp [hc]

theorem numOk_iff (hpids : Pids s) (hq : s.state q ≠ .unused) :
    NumOk s q ↔ ∀ r, r < q → s.state r = .unused → s.containerID r ≠ s.containerID q := by
  have hunique : ∀ r, s.pid r = s.pid q → r = q := by
    intro r hr
    refine (hpids.tickets.unique q r ?_ hr.symm).symm
    exact hpids.inUse q hq
  have hcount := countTo_eq (s.containerID q) 0 hunique
    (List.pairwise_lt_finRange NPROC) (List.mem_finRange q)
  have hflip : ((List.finRange NPROC).countP fun r => s.inUse (s.containerID q) r && decide (r ≤ q)) =
      (List.finRange NPROC).countP fun r =>
        (s.containerID r == s.containerID q && decide (r ≤ q)) && s.state r != .unused := by
    refine List.countP_congr fun r _ => ?_
    simp only [Sys.inUse, Bool.and_eq_true]
    tauto
  unfold NumOk Tables.procContainerNum
  rw [pidContainer_eq hunique, hcount, Int.zero_add, Int.natCast_inj, hflip, eq_comm, countP_and_eq]
  simp only [List.mem_finRange, Bool.and_eq_true, beq_iff_eq, decide_eq_true_eq, bne_iff_ne,
    forall_const, and_imp]
  constructor
  · intro h r hr hstate hc
    exact h r hc hr.le hstate
  · intro h r hc hr hstate
    refine h r (lt_of_le_of_ne hr ?_) hstate hc
    rintro rfl
    exact hq hstate

/-! ### The history of a slot -/

/-- The process that is made in slot `np` gets its container. -/
def tenant (s : Sys) : Act → Option (Slot × ℤ)
  | .step p _ =>
    match s.pc p with
    | .fields k np => some (np, k.target s.t p)
    | _ => none
  | _ => none

/-- The container of the last process that was made in slot `q`, 0 before the first one. -/
def lastTenant (l : List (Slot × ℤ)) (q : Slot) : ℤ :=
  l.foldl (fun c x => if x.1 = q then x.2 else c) 0

theorem lastTenant_append (l : List (Slot × ℤ)) (o : Option (Slot × ℤ)) (q : Slot) :
    lastTenant (l ++ o.toList) q = match o with
      | some x => if x.1 = q then x.2 else lastTenant l q
      | none => lastTenant l q := by
  unfold lastTenant
  rw [List.foldl_append]
  cases o <;> rfl

theorem containerID_of_step (ht : step s a = .ok t) (q : Slot) :
    t.containerID q = match tenant s a with
      | some x => if x.1 = q then x.2 else s.containerID q
      | none => s.containerID q := by
  cases hx : tenant s a with
  | some x =>
    cases a with
    | step p e =>
      have hx' := hx
      unfold tenant at hx'
      dsimp only at hx'
      split at hx'
      next k np hpc =>
        cases hx'
        rw [fields_step hpc ht]
        dsimp only [Sys.containerID, Sys.goto, Tables.copyFields]
        rw [Tables.setProc_proc]
        by_cases hq : q = np
        · rw [if_pos hq, if_pos hq.symm]
        · rw [if_neg hq, if_neg (Ne.symm hq)]
      next => cases hx'
    | call _ _ | yield _ | sleep _ _ | wakeup _ | sched _ => cases hx
  | none =>
    have hsame : t.containerID = s.containerID → t.containerID q = s.containerID q :=
      fun h => congrFun h q
    cases step_effect ht with
    | quiet names _ _ | leave _ names _ _ _ _ _ | release _ _ names _ _ _
    | enterUnlisted _ _ names _ _ _ _ | publish _ _ _ names _ _ _ | exit _ names _ _ _ _ _ _ =>
      exact hsame names.containerID
    | alloc _ _ _ hid | enter _ _ _ _ _ hid | delist _ _ hid | reap _ _ _ hid => exact hsame hid
    | name p np k _ _ _ hentered _ hstage _ =>
      -- only the section that copies the fields gives a container
      have hst : t.stage p ≠ s.stage p := by
        rw [hentered, hstage, Function.update_self]
        exact nofun
      obtain ⟨e, rfl⟩ := step_of_stage ht hst
      have hpc : s.pc p = .fields k np := by
        refine fields_of_named (step_effect ht) ?_ hst
        rw [hstage, Function.update_self]
      simp only [tenant, hpc] at hx
      cases hx

theorem Booted.containerID_zero (h : Booted s) (q : Slot) : s.containerID q = 0 := by
  obtain ⟨page, t, ht, rfl⟩ := h
  obtain ⟨t', ht', -, -, -, -, hproc, -⟩ := Tables.userinit_ok page
  cases Except.ok.inj (ht.symm.trans ht')
  simp only [Sys.containerID, boot, hproc, Function.update_apply]
  split_ifs <;> rfl

/-- What is in a slot follows from the processes made there. -/
theorem containerID_eq {l : List (Slot × ℤ)} (hs : Booted s) (h : Trace step always tenant s l t)
    (q : Slot) : t.containerID q = lastTenant l q := by
  refine h.invariant (I := fun l t => ∀ q, t.containerID q = lastTenant l q) ?_ ?_ q
  · exact hs.containerID_zero
  · intro l t a u ih _ hu q
    rw [containerID_of_step hu q, lastTenant_append, ih q]

/-- The scans are right as long as the free slots they meet had their last process in another
container. -/
theorem counts_iff {l : List (Slot × ℤ)} (hs : Booted s) (h : Trace step always tenant s l t) :
    (∀ p, PsOk t p ↔ ∀ q, t.state q = .unused → lastTenant l q ≠ t.containerID p) ∧
    ∀ q, t.state q ≠ .unused →
      (NumOk t q ↔ ∀ r, r < q → t.state r = .unused → lastTenant l r ≠ t.containerID q) := by
  have hid := containerID_eq hs h
  have hinv := (h.reach (.start hs)).invariant (I := fun s => Holders s ∧ Pids s)
    (fun _ hb => ⟨hb.holders, hb.pids⟩)
    fun _ _ _ h _ ht => ⟨h.1.step (step_effect ht), h.2.step h.1 (step_effect ht)⟩
  refine ⟨fun p => ?_, fun q hq => ?_⟩
  · rw [psOk_iff]
    simp only [hid]
  · rw [numOk_iff hinv.2 hq]
    simp only [hid]

/-- The process that has joined container 1, whose slot comes behind two of container 0. -/
theorem counts_joined : ∃ s, s.containerID 2 = 1 ∧ PsOk s 2 ∧ NumOk s 2 := by
  obtain ⟨l, s, hs, ht⟩ :=
    (Trace.nil : Trace step always tenant firstBoot [] firstBoot).of_watch
      (fun l s => decide (s.containerID 2 = 1) && decide (s.state 2 = .running) &&
        decide (∀ q, s.state q = .unused → lastTenant l q ≠ s.containerID 2)) joinRun
      (by decide +kernel)
  simp only [Bool.and_eq_true, decide_eq_true_eq] at ht
  obtain ⟨⟨hid, hrun⟩, hfree⟩ := ht
  have h := counts_iff booted_firstBoot hs
  refine ⟨s, hid, (h.1 2).2 hfree, (h.2 2 ?_).2 fun r _ hr => hfree r hr⟩
  rw [hrun]
  exact nofun

/-- The first process has two children, one exits and is reaped: `ps` lists its slot and all those
that were never used, and `proc_container_num` counts it. -/
theorem reaped_is_counted : ∃ s, Reach step always Booted s ∧ s.state 0 = .running ∧
    s.state 2 ≠ .unused ∧ ¬ PsOk s 0 ∧ ¬ NumOk s 2 := by
  have hboot : Reach step always Booted firstBoot := .start booted_firstBoot
  obtain ⟨s, hs, ht⟩ := hboot.of_endsIn
    (fun s => decide (s.state 0 = .running) && decide (s.state 2 ≠ .unused) &&
      decide (¬ PsOk s 0) && decide (¬ NumOk s 2))
    (turns 2 ++ .call 0 .fork :: sections 0 6 ++ .call 0 .fork :: sections 0 6 ++
      .call 0 .wait :: sections 0 1 ++ turns 1 ++ .call 1 .exit :: sections 1 1 ++ turns 1 ++
      .yield 2 :: turns 6 ++ sections 0 1)
    (by decide +kernel)
  simp only [Bool.and_eq_true, decide_eq_true_eq] at ht
  exact ⟨s, hs, ht.1.1.1, ht.1.1.2, ht.1.2, ht.2⟩

end Xv6Container.Containers
