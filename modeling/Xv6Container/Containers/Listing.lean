import Xv6Container.Containers.Holders

/-! The container lists against the process table. At every point where no `fork` or
`joinContainer` is under way, an entry of a container's list should point to a process
of that container, and no process should be listed twice. The kernel keeps this up as
long as no `wait` reaps a process that is still listed: `exit` does not take its caller
off the list, only `joinContainer` does, and a listed process that exits by itself
leaves an entry to a slot that the next `fork` hands to another process. -/

namespace Xv6Container.Containers

open Lib

variable {s t : Sys} {a : Act}

/-! ### The invariant -/

/-- The process is inside `fork` or `joinContainer`. -/
def Pc.creating : Pc → Bool
  | .setAlloc _ _ | .alloc _ | .kstack _ _ | .resetAlloc _ _ | .copy _ _ | .list _ _
  | .fields _ _ | .publish _ _ | .delist _ | .exiting true => true
  | _ => false

/-- No `fork` and no `joinContainer` is in progress. -/
def Quiescent (s : Sys) : Prop := ∀ q, (s.pc q).creating = false

/-- Every entry of a container `c` from 1 on is a process in use whose container is `c`,
and no slot is listed twice, in one container or in two. -/
structure ListsOk (s : Sys) : Prop where
  entry : ∀ (c : Fin NCONT) i p, 1 ≤ c.val → s.list c i = some p →
    s.state p ≠ .unused ∧ s.containerID p = c.val
  once : ∀ c i d j p, s.list c i = some p → s.list d j = some p → c = d ∧ i = j

/-- The same between any two steps: a slot that is being created is not listed until
`enter`, and from then on only in the container it is created for. -/
structure Listing (s : Sys) : Prop where
  holders : Holders s
  inUse : ∀ c i p, s.list c i = some p → s.state p ≠ .unused
  fresh : ∀ q np, s.stage q = .fresh np → ∀ c i, s.list c i ≠ some np
  entered : ∀ q k np, s.stage q = .entered k np → ∀ c i, s.list c i = some np →
    k.target s.t q = c.val
  id : ∀ c i p, s.list c i = some p → (∀ q k, s.stage q ≠ .entered k p) →
    s.containerID p = c.val
  once : ∀ c i d j p, s.list c i = some p → s.list d j = some p → c = d ∧ i = j

/-- `wait` reaps no process that is still listed. -/
def ReapsUnlisted (s : Sys) : Act → Prop
  | .step p _ => s.pc p = .waiting →
    match s.t.waitScan p with
    | .reaped q => ∀ c i, s.list c i ≠ some q
    | _ => True
  | _ => True

theorem Moves.unused {b c : ProcState} (h : Moves b c) (hc : c = .unused) : b = .unused := by
  rcases h with rfl | ⟨-, rfl | rfl⟩ | ⟨-, rfl⟩
  · exact hc
  all_goals cases hc

theorem target_congr {k : Creator} {q : Slot} (h : t.containerID q = s.containerID q) :
    k.target t.t q = k.target s.t q := by
  cases k with
  | fork => exact h
  | join c pp => rfl

namespace Listing

/-- Steps that neither list, name nor enter anything. -/
theorem frame (h : Listing s) (hh : Holders t) (hlist : t.list = s.list)
    (hid : t.containerID = s.containerID) (hstate : ∀ c i p, s.list c i = some p →
      t.state p = .unused → s.state p = .unused)
    (hfresh : ∀ q np, t.stage q = .fresh np → s.stage q = .fresh np ∨ s.state np = .unused)
    (hentered : ∀ q k np, t.stage q = .entered k np ↔ s.stage q = .entered k np) : Listing t where
  holders := hh
  inUse c i p hp := by
    rw [hlist] at hp
    exact fun hu => h.inUse c i p hp (hstate c i p hp hu)
  fresh q np hq c i hp := by
    rw [hlist] at hp
    rcases hfresh q np hq with hq | hq
    · exact h.fresh q np hq c i hp
    · exact h.inUse c i np hp hq
  entered q k np hq c i hp := by
    rw [hlist] at hp
    rw [target_congr (congrFun hid q)]
    exact h.entered q k np ((hentered q k np).mp hq) c i hp
  id c i p hp hne := by
    rw [hlist] at hp
    rw [hid]
    exact h.id c i p hp fun q k hq => hne q k ((hentered q k p).mpr hq)
  once := by rw [hlist]; exact h.once

/-- The new slot is entered into the list of the container it is created for. -/
theorem enter (h : Listing s) (hh : Holders t) {p np : Slot} {k : Creator} {c : Fin NCONT}
    {i : Fin PROCESS_COUNT} (hid : t.containerID = s.containerID) (hfresh : s.stage p = .fresh np)
    (htarget : k.target s.t p = c.val)
    (hlist : t.list = Function.update s.list c (Function.update (s.list c) i (some np)))
    (hstage : t.stage = Function.update s.stage p (.entered k np)) (hstate : t.state = s.state) :
    Listing t := by
  have hheld : (s.stage p).held = some np := by rw [hfresh]; rfl
  have hentry : ∀ d j x, t.list d j = some x → (d = c ∧ j = i ∧ x = np) ∨ s.list d j = some x := by
    intro d j x hx
    rw [hlist, Function.update_apply] at hx
    split_ifs at hx with hd
    · subst hd
      rw [Function.update_apply] at hx
      split_ifs at hx with hj
      · exact .inl ⟨rfl, hj, (Option.some.inj hx).symm⟩
      · exact .inr hx
    · exact .inr hx
  have hold : ∀ d j, s.list d j ≠ some np := h.fresh p np hfresh
  constructor
  case holders => exact hh
  case inUse =>
    intro d j x hx
    rw [hstate]
    rcases hentry d j x hx with ⟨-, -, rfl⟩ | hx
    · rw [h.holders.embryo p x hheld]; decide
    · exact h.inUse d j x hx
  case fresh =>
    intro q x hq d j hx
    have hqp : q ≠ p := by
      rintro rfl
      rw [hstage, Function.update_self] at hq
      cases hq
    rw [hstage, Function.update_of_ne hqp] at hq
    rcases hentry d j x hx with ⟨-, -, rfl⟩ | hx
    · exact hqp (h.holders.unique q p x (by rw [hq]; rfl) hheld)
    · exact h.fresh q x hq d j hx
  case entered =>
    intro q l x hq d j hx
    rw [target_congr (congrFun hid q)]
    by_cases hqp : q = p
    · subst hqp
      rw [hstage, Function.update_self] at hq
      cases hq
      rcases hentry d j np hx with ⟨rfl, -, -⟩ | hx
      · exact htarget
      · exact absurd hx (hold d j)
    · rw [hstage, Function.update_of_ne hqp] at hq
      rcases hentry d j x hx with ⟨-, -, rfl⟩ | hx
      · exact absurd (h.holders.unique q p x (by rw [hq]; rfl) hheld) hqp
      · exact h.entered q l x hq d j hx
  case id =>
    intro d j x hx hne
    rcases hentry d j x hx with ⟨-, -, rfl⟩ | hx
    · exact absurd (by rw [hstage, Function.update_self]) (hne p k)
    · rw [hid]
      refine h.id d j x hx fun q l hq => ?_
      have hqp : q ≠ p := by
        rintro rfl
        rw [hfresh] at hq
        cases hq
      exact hne q l (by rw [hstage, Function.update_of_ne hqp, hq])
  case once =>
    intro d j e l x hx hy
    rcases hentry d j x hx with ⟨rfl, rfl, rfl⟩ | hx <;>
      rcases hentry e l _ hy with ⟨rfl, rfl, h3⟩ | hy
    · exact ⟨rfl, rfl⟩
    · exact absurd hy (hold e l)
    · subst h3
      exact absurd hx (hold d j)
    · exact h.once d j e l x hx hy

/-- The new slot gets the container it has been entered for. -/
theorem name (h : Listing s) (hh : Holders t) {p np : Slot} {k : Creator}
    (hlist : t.list = s.list) (hentered : s.stage p = .entered k np)
    (hid : t.containerID = Function.update s.containerID np (k.target s.t p))
    (hstage : t.stage = Function.update s.stage p (.named k np)) (hstate : t.state = s.state) :
    Listing t := by
  have hheld : (s.stage p).held = some np := by rw [hentered]; rfl
  have hstay : ∀ q, q ≠ p → t.stage q = s.stage q := by
    intro q hq
    rw [hstage, Function.update_of_ne hq]
  have hother : ∀ q l x, t.stage q = .entered l x → q ≠ p := by
    rintro q l x hq rfl
    rw [hstage, Function.update_self] at hq
    cases hq
  constructor
  case holders => exact hh
  case inUse =>
    rw [hlist, hstate]; exact h.inUse
  case fresh =>
    intro q x hq
    have hqp : q ≠ p := by
      rintro rfl
      rw [hstage, Function.update_self] at hq
      cases hq
    rw [hlist]
    exact h.fresh q x (by rw [← hstay q hqp, hq])
  case entered =>
    intro q l x hq d j hx
    rw [hlist] at hx
    have hqp := hother q l x hq
    rw [hstay q hqp] at hq
    have hqnp : q ≠ np := h.holders.ne_held (h.holders.live q (by rw [hq]; exact nofun)) hheld
    have hsame : t.containerID q = s.containerID q := by rw [hid, Function.update_of_ne hqnp]
    rw [target_congr hsame]
    exact h.entered q l x hq d j hx
  case id =>
    intro d j x hx hne
    rw [hlist] at hx
    by_cases hxnp : x = np
    · subst hxnp
      rw [hid, Function.update_self]
      exact h.entered p k x hentered d j hx
    · rw [hid, Function.update_of_ne hxnp]
      refine h.id d j x hx fun q l hq => ?_
      have hqp : q ≠ p := by
        rintro rfl
        rw [hentered] at hq
        cases hq
        exact hxnp rfl
      exact hne q l (by rw [hstay q hqp, hq])
  case once =>
    rw [hlist]; exact h.once

/-- Entries are taken off the lists. -/
theorem delist (h : Listing s) (hh : Holders t) {p : Slot} {b : Stage}
    (hid : t.containerID = s.containerID)
    (hlist : ∀ c i q, t.list c i = some q → s.list c i = some q)
    (hp : ∀ k np, s.stage p ≠ .entered k np) (hb : b = .tail)
    (hstage : t.stage = Function.update s.stage p b) (hstate : t.state = s.state) :
    Listing t := by
  subst hb
  have hne : ∀ q, t.stage q ≠ .tail → t.stage q = s.stage q := by
    intro q hq
    rw [hstage, Function.update_apply] at hq ⊢
    split_ifs at hq ⊢
    · exact absurd rfl hq
    · rfl
  constructor
  case holders => exact hh
  case inUse =>
    intro c i q hq
    rw [hstate]; exact h.inUse c i q (hlist c i q hq)
  case fresh =>
    intro q np hq c i hx
    rw [hne q (by rw [hq]; exact nofun)] at hq
    exact h.fresh q np hq c i (hlist c i np hx)
  case entered =>
    intro q k np hq c i hx
    rw [hne q (by rw [hq]; exact nofun)] at hq
    rw [target_congr (congrFun hid q)]
    exact h.entered q k np hq c i (hlist c i np hx)
  case id =>
    intro c i q hq hent
    rw [hid]
    refine h.id c i q (hlist c i q hq) fun x k hx => ?_
    have hxp : x ≠ p := by
      rintro rfl
      exact hp k q hx
    exact hent x k (by rw [hstage, Function.update_of_ne hxp, hx])
  case once =>
    intro c i d j q hq hq'
    exact h.once c i d j q (hlist c i q hq) (hlist d j q hq')

theorem step (h : Listing s) (hg : ReapsUnlisted s a) (he : Effect s a t) : Listing t := by
  have hh := h.holders.step he
  cases he with
  | quiet names hstage hstate =>
    refine h.frame hh names.list names.containerID (fun c i p _ hu => (hstate p).unused hu) ?_ ?_
    · intro q np hq
      rw [hstage] at hq
      exact .inl hq
    · intro q k np
      rw [hstage]
  | leave p names hstage hrun hleft hothers _ =>
    refine h.frame hh names.list names.containerID (fun c i q _ hu => ?_) ?_ ?_
    · by_cases hqp : q = p
      · rw [hqp] at hu
        rcases hleft with hl | hl <;> rw [hl] at hu <;> cases hu
      · rwa [← hothers q hqp]
    · intro q np hq
      rw [hstage] at hq
      exact .inl hq
    · intro q k np
      rw [hstage]
  | alloc p np hlist hid hidle hrun hunused _ _ hstage hstate =>
    refine h.frame hh hlist hid (fun c i q _ hu => ?_) (fun q x hq => ?_) (fun q k x => ?_)
    · rw [hstate, Function.update_apply] at hu
      split_ifs at hu
      exact hu
    · rw [hstage, Function.update_apply] at hq
      split_ifs at hq
      · cases hq
        exact .inr hunused
      · exact .inl hq
    · rw [hstage, Function.update_apply]
      split_ifs with hqp
      · simp [hqp, hidle]
      · exact Iff.rfl
  | release p np names hfresh hstage hstate =>
    refine h.frame hh names.list names.containerID (fun c i q hq hu => ?_) (fun q x hq => ?_)
      (fun q k x => ?_)
    · rw [hstate, Function.update_apply] at hu
      split_ifs at hu with hqnp
      · subst hqnp
        exact absurd hq (h.fresh p q hfresh c i)
      · exact hu
    · rw [hstage, Function.update_apply] at hq
      split_ifs at hq
      exact .inl hq
    · rw [hstage, Function.update_apply]
      split_ifs with hqp
      · simp [hqp, hfresh]
      · exact Iff.rfl
  | enterUnlisted p np names hfresh htarget hstage hstate =>
    have hold : ∀ d j, s.list d j ≠ some np := h.fresh p np hfresh
    have hstay : ∀ q, q ≠ p → t.stage q = s.stage q := by
      intro q hq
      rw [hstage, Function.update_of_ne hq]
    constructor
    case holders => exact hh
    case inUse =>
      rw [names.list, hstate]; exact h.inUse
    case fresh =>
      intro q x hq
      have hqp : q ≠ p := by
        rintro rfl
        rw [hstage, Function.update_self] at hq
        cases hq
      rw [names.list]
      exact h.fresh q x (by rw [← hstay q hqp, hq])
    case entered =>
      intro q k x hq d j hx
      rw [names.list] at hx
      rw [target_congr (congrFun names.containerID q)]
      by_cases hqp : q = p
      · rw [hqp, hstage, Function.update_self] at hq
        cases hq
        exact absurd hx (hold d j)
      · rw [hstay q hqp] at hq
        exact h.entered q k x hq d j hx
    case id =>
      intro d j x hx hne
      rw [names.list] at hx
      rw [names.containerID]
      refine h.id d j x hx fun q l hq => ?_
      have hqp : q ≠ p := by
        rintro rfl
        rw [hfresh] at hq
        cases hq
      exact hne q l (by rw [hstay q hqp, hq])
    case once =>
      rw [names.list]; exact h.once
  | enter p np k c i hid _ _ hfresh htarget _ hlist hstage hstate =>
    exact h.enter hh hid hfresh htarget hlist hstage hstate
  | name p np k hlist _ _ hentered hid hstage hstate =>
    exact h.name hh hlist hentered hid hstage hstate
  | publish p np k names hnamed hstage hstate =>
    refine h.frame hh names.list names.containerID (fun c i q hq hu => ?_) (fun q x hq => ?_)
      (fun q k x => ?_)
    · rw [hstate, Function.update_apply] at hu
      split_ifs at hu
      exact hu
    · rw [hstage, Function.update_apply] at hq
      split_ifs at hq
      exact .inl hq
    · rw [hstage, Function.update_apply]
      split_ifs with hqp
      · simp [hqp, hnamed]
      · exact Iff.rfl
  | delist p pp hid _ _ hpc _ hlist hstage hstate =>
    refine h.delist hh hid (fun c i q hq => ?_) (fun k np hp => ?_) rfl hstage hstate
    · rcases hlist c i with he | ⟨he, -⟩
      · rwa [← he]
      · rw [he] at hq; cases hq
    · simp [Sys.stage, hpc, Pc.stage] at hp
  | exit p names hrun hexiting _ hstage hzombie hothers =>
    refine h.frame hh names.list names.containerID (fun c i q _ hu => ?_) (fun q x hq => ?_)
      (fun q k x => ?_)
    · by_cases hqp : q = p
      · rw [hqp, hzombie] at hu; cases hu
      · exact (hothers q hqp).unused hu
    · rw [hstage, Function.update_apply] at hq
      split_ifs at hq
      exact .inl hq
    · rw [hstage, Function.update_apply]
      split_ifs with hqp
      · rcases hexiting with he | he <;> simp [hqp, he]
      · exact Iff.rfl
  | reap p q hlist hid _ hact hpc hreaped _ _ hstage hstate =>
    obtain ⟨e, rfl⟩ := hact
    have hoff : ∀ c i, s.list c i ≠ some q := by
      have := hg hpc
      rwa [hreaped] at this
    refine h.frame hh hlist hid (fun c i x hx hu => ?_) (fun x np hx => ?_) (fun x k np => ?_)
    · rw [hstate, Function.update_apply] at hu
      split_ifs at hu with hxq
      · subst hxq
        exact absurd hx (hoff c i)
      · exact hu
    · rw [hstage] at hx
      exact .inl hx
    · rw [hstage]

end Listing

/-! ### Runs -/

theorem Booted.stage (h : Booted s) (q : Slot) : s.stage q = .idle := by
  obtain ⟨page, t, -, rfl⟩ := h
  rfl

theorem Booted.list (h : Booted s) {c : Fin NCONT} {i : Fin PROCESS_COUNT} {p : Slot}
    (hp : s.list c i = some p) : c = 0 ∧ i = 0 ∧ p = 0 := by
  obtain ⟨page, t, ht, rfl⟩ := h
  obtain ⟨t', ht', -, -, -, -, -, hcon⟩ := Tables.userinit_ok page
  cases Except.ok.inj (ht.symm.trans ht')
  simp only [Sys.list, boot, hcon, Function.update_apply] at hp
  split_ifs at hp with hc
  · dsimp only at hp
    rw [Function.update_apply] at hp
    split_ifs at hp with hi
    exact ⟨hc, hi, (Option.some.inj hp).symm⟩
  · cases hp

theorem Booted.proc (h : Booted s) : s.state 0 = .runnable ∧ s.containerID 0 = 0 := by
  obtain ⟨page, t, ht, rfl⟩ := h
  obtain ⟨t', ht', -, -, -, -, hproc, -⟩ := Tables.userinit_ok page
  cases Except.ok.inj (ht.symm.trans ht')
  simp [Sys.state, Sys.containerID, boot, hproc, Tables.zeroProc]

theorem Booted.holders (h : Booted s) : Holders s where
  live q hq := absurd (h.stage q) hq
  embryo q np hq := by rw [h.stage] at hq; cases hq
  unique q q' np hq := by rw [h.stage] at hq; cases hq

theorem Booted.listing (h : Booted s) : Listing s where
  holders := h.holders
  inUse c i p hp := by
    obtain ⟨-, -, rfl⟩ := h.list hp
    rw [h.proc.1]
    decide
  fresh q np hq := by rw [h.stage] at hq; cases hq
  entered q k np hq := by rw [h.stage] at hq; cases hq
  id c i p hp _ := by
    obtain ⟨rfl, -, rfl⟩ := h.list hp
    exact h.proc.2
  once c i d j p hp hq := by
    obtain ⟨rfl, rfl, -⟩ := h.list hp
    obtain ⟨rfl, rfl, -⟩ := h.list hq
    exact ⟨rfl, rfl⟩

theorem Listing.of_reach (hs : Reach Containers.step ReapsUnlisted Booted s) : Listing s :=
  hs.invariant (fun _ => Booted.listing) fun _ _ _ h hg ht => h.step hg (step_effect ht)

/-- With nothing under way no entry waits for its name. -/
theorem Listing.listsOk (h : Listing s) (hq : Quiescent s) : ListsOk s where
  entry c i p _ hp := by
    refine ⟨h.inUse c i p hp, h.id c i p hp fun q k hk => ?_⟩
    have hc := hq q
    rw [Sys.stage] at hk
    cases hpc : s.pc q with
    | exiting b => rw [hpc] at hk; cases b <;> cases hk
    | fields l np => rw [hpc] at hc; cases hc
    | _ => rw [hpc] at hk; cases hk
  once := h.once

/-- In every run whose `wait` calls reap only processes that are off the lists, the lists
are right at every point where no `fork` or `joinContainer` is in progress. -/
theorem listsOk_of_reapsUnlisted (hs : Reach step ReapsUnlisted Booted s) (hq : Quiescent s) :
    ListsOk s :=
  (Listing.of_reach hs).listsOk hq

/-! ### A listed process that exits -/

instance (s : Sys) : Decidable (Quiescent s) :=
  inferInstanceAs (Decidable (∀ q, (s.pc q).creating = false))

instance (s : Sys) (a : Act) : Decidable (ReapsUnlisted s a) :=
  match a with
  | .step p _ =>
    match h : s.t.waitScan p with
    | .reaped q => decidable_of_iff (s.pc p = .waiting → ∀ c i, s.list c i ≠ some q)
        (by simp only [ReapsUnlisted, h])
    | .noKids => .isTrue (by simp [ReapsUnlisted, h])
    | .sleep => .isTrue (by simp [ReapsUnlisted, h])
  | .call _ _ | .yield _ | .sleep _ _ | .wakeup _ | .sched _ => .isTrue trivial

/-- `join_container` is called with an id that `create_container` has returned. -/
def KnownIds (s : Sys) : Act → Prop
  | .call _ (.join_container c) => 1 ≤ c ∧ c < s.t.containerNum
  | _ => True

instance (s : Sys) (a : Act) : Decidable (KnownIds s a) :=
  match a with
  | .call _ (.join_container c) => inferInstanceAs (Decidable (1 ≤ c ∧ c < s.t.containerNum))
  | .call _ .fork | .call _ .leave_container | .call _ .create_container
  | .call _ (.containerProcessNum _) | .call _ .exit | .call _ .wait | .call _ (.kill _)
  | .call _ .scheduler_log_on | .step _ _ | .yield _ | .sleep _ _ | .wakeup _ | .sched _ =>
    .isTrue trivial

/-- A machine with enough memory. -/
def answers : Env := ⟨some 8192, true, 0, fun i => some (16384 + 4096 * i.val)⟩

def sections (p : Slot) (n : ℕ) : List Act := List.replicate n (.step p answers)

def turns (n : ℕ) : List Act := List.replicate n (.sched 0)

/-- The first process forks a child, makes container 1 and waits; the child joins container 1,
and the process that takes its place there runs. -/
def joinRun : List Act :=
  turns 2 ++ .call 0 .fork :: sections 0 6 ++ .call 0 .create_container :: sections 0 2 ++
  .call 0 .wait :: sections 0 1 ++ turns 1 ++ .call 1 (.join_container 1) :: sections 1 10 ++
  turns 4

/-- Then the process in container 1 exits, and the first process reaps the child. -/
def exitRun : List Act :=
  joinRun ++ .call 2 .exit :: sections 2 1 ++ turns 6 ++ sections 0 1

/-- The booted machine whose first kernel stack is page 4096. -/
def firstBoot : Sys :=
  match Tables.userinit 4096 with
  | .ok t => boot t
  | .error _ => boot Tables.zero

theorem booted_firstBoot : Booted firstBoot := ⟨4096, _, rfl, rfl⟩

theorem listsOk_after_exit : ∃ s, s.list 1 0 = some 2 ∧ ListsOk s := by
  have hboot : Reach step ReapsUnlisted Booted firstBoot := .start booted_firstBoot
  obtain ⟨s, hs, ht⟩ := hboot.of_endsIn
    (fun s => decide (Quiescent s) && decide (s.list 1 0 = some 2)) exitRun (by decide +kernel)
  simp only [Bool.and_eq_true, decide_eq_true_eq] at ht
  exact ⟨s, ht.2, listsOk_of_reapsUnlisted hs ht.1⟩

/-- Then the first process also reaps the process that exited in container 1, and the
list of container 1 keeps an entry to a free slot. -/
theorem exit_leaves_entry : ∃ s, Reach step KnownIds Booted s ∧ Quiescent s ∧ ¬ ListsOk s := by
  have hboot : Reach step KnownIds Booted firstBoot := .start booted_firstBoot
  obtain ⟨s, hs, ht⟩ := hboot.of_endsIn
    (fun s => decide (Quiescent s) && decide (s.list 1 0 = some 2) &&
      decide (s.state 2 = .unused))
    (exitRun ++ .call 0 .wait :: sections 0 1) (by decide +kernel)
  simp only [Bool.and_eq_true, decide_eq_true_eq] at ht
  obtain ⟨⟨hq, hlist⟩, hstate⟩ := ht
  exact ⟨s, hs, hq, fun h => (h.entry 1 0 2 (by decide) hlist).1 hstate⟩

end Xv6Container.Containers
