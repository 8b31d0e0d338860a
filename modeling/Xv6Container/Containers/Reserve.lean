import Xv6Container.Containers.Schedulable

/-! Where kernel stacks come from. `joinContainer` tells `allocproc` through the global
`allocFor` to take the new kernel stack from the reserve of its container, and sets the
global back to 0 once `allocproc` has returned a process. When `allocproc` fails it does
not: `allocFor` keeps the container's id, and the next `fork` takes its kernel stack from
that reserve. -/

namespace Xv6Container.Containers

open Lib

variable {s t : Sys} {a : Act}

/-! ### The calls one at a time -/

/-- The process is inside `joinContainer`. -/
def Pc.joining : Pc → Bool
  | .exiting b => b
  | pc => pc.parentpid.isSome

/-- The process is inside `fork`, `joinContainer` or `create_container`. -/
def Pc.busy : Pc → Bool
  | .initContainer | .createReturn => true
  | pc => pc.creating

/-- `create_container`, `join_container`, `leave_container` and `fork` are called only
when no such call is in progress. -/
def OneAtATime (s : Sys) : Act → Prop
  | .call _ .fork | .call _ (.join_container _) | .call _ .leave_container
  | .call _ .create_container => ∀ q, (s.pc q).busy = false
  | _ => True

/-- The next page of a container's reserve is missing. -/
def Tables.Exhausted (t : Tables) (containerID : ℤ) : Prop :=
  ∃ (c : Fin NCONT) (i : Fin MCONT), containerID = c.val ∧ (t.container c).used = i.val ∧
    (t.container c).startAddr i = none

/-- A `joinContainer` into a container other than 0 gets a process slot and a page from
the container's reserve. -/
def JoinsGetStack (s : Sys) : Act → Prop
  | .step p _ =>
    match s.pc p with
    | .alloc (.join c _) => c ≠ 0 → ∃ q, s.state q = .unused
    | .kstack (.join c _) _ => c ≠ 0 → ¬ s.t.Exhausted c
    | _ => True
  | _ => True

/-- `allocFor` is 0 outside `joinContainer`; the kernel stack of a process created by
`fork` is a page from `kalloc`, the one of a process created by `joinContainer` is the
next page of its container's reserve. -/
structure StacksOk (s : Sys) : Prop where
  idle : (∀ q, (s.pc q).joining = false) → s.t.allocFor = 0
  fork : ∀ p np e t, s.pc p = .kstack .fork np → step s (.step p e) = .ok t →
    (t.t.proc np).kstack = e.page ∧ t.t.container = s.t.container
  join : ∀ p np c pp e t, s.pc p = .kstack (.join c pp) np → c ≠ 0 → step s (.step p e) = .ok t →
    ∃ (k : Fin NCONT) (i : Fin MCONT), c = k.val ∧ (s.t.container k).used = i.val ∧
      (t.t.proc np).kstack = (s.t.container k).startAddr i

/-! ### The invariant -/

def Creator.reserve : Creator → Option ℤ
  | .fork => none
  | .join c _ => some c

/-- What `allocFor` has to be for the process: between the two assignments in
`joinContainer` it is the argument of the call. -/
def Pc.reserve : Pc → Option ℤ
  | .alloc k | .kstack k _ | .resetAlloc k _ => k.reserve
  | _ => none

/-- At most one call is in progress, and `allocFor` is set exactly inside it. -/
structure Reserve (s : Sys) : Prop where
  alone : ∀ p q, (s.pc p).busy → (s.pc q).busy → p = q
  inside : ∀ q c, (s.pc q).reserve = some c → s.t.allocFor = c
  outside : (∀ q, (s.pc q).reserve = none) → s.t.allocFor = 0

theorem Pc.busy_of_reserve {pc : Pc} {c : ℤ} (h : pc.reserve = some c) : pc.busy = true := by
  cases pc <;> first | rfl | cases h

namespace Reserve

/-- One process moves. Either it is between the assignments afterwards, or it leaves
`allocFor` at 0, or it has never touched it. -/
theorem move (h : Reserve s) {p : Slot} {pc : Pc} (hpc : t.pc = Function.update s.pc p pc)
    (hbusy : pc.busy → (s.pc p).busy ∨ ∀ q, (s.pc q).busy = false)
    (hres : pc.reserve = some t.t.allocFor ∨ pc.reserve = none ∧
      ((s.pc p).busy ∧ t.t.allocFor = 0 ∨
        (s.pc p).reserve = none ∧ t.t.allocFor = s.t.allocFor)) : Reserve t := by
  have hother : ∀ q, q ≠ p → (s.pc q).busy → pc.busy = false ∧ (s.pc p).busy = false := by
    intro q hq hb
    have hp : (s.pc p).busy = false := by
      by_contra hp
      exact hq (h.alone q p hb (by simpa using hp))
    refine ⟨?_, hp⟩
    by_contra hpc'
    rcases hbusy (by simpa using hpc') with h1 | h1
    · rw [hp] at h1; cases h1
    · rw [h1 q] at hb; cases hb
  refine ⟨fun q q' hq hq' => ?_, fun q c hq => ?_, fun hall => ?_⟩
  · rw [hpc, Function.update_apply] at hq hq'
    split_ifs at hq hq' with h1 h2 h2
    · rw [h1, h2]
    · rw [(hother q' h2 hq').1] at hq; cases hq
    · rw [(hother q h1 hq).1] at hq'; cases hq'
    · exact h.alone q q' hq hq'
  · rw [hpc, Function.update_apply] at hq
    split_ifs at hq with h1
    · rcases hres with hr | ⟨hr, -⟩
      · rw [hr] at hq
        exact Option.some.inj hq
      · rw [hr] at hq; cases hq
    · have hidle := hother q h1 (Pc.busy_of_reserve hq)
      rcases hres with hr | ⟨-, ⟨hb, -⟩ | ⟨-, hsame⟩⟩
      · rw [Pc.busy_of_reserve hr] at hidle
        cases hidle.1
      · rw [hidle.2] at hb; cases hb
      · rw [hsame]
        exact h.inside q c hq
  · have hp := hall p
    rw [hpc, Function.update_self] at hp
    rcases hres with hr | ⟨-, ⟨-, hz⟩ | ⟨hnone, hsame⟩⟩
    · rw [hr] at hp; cases hp
    · exact hz
    · rw [hsame]
      refine h.outside fun q => ?_
      by_cases hq : q = p
      · rw [hq, hnone]
      · have := hall q
        rwa [hpc, Function.update_of_ne hq] at this

/-- Steps outside the calls. -/
theorem same (h : Reserve s) (hpc : t.pc = s.pc) (hfor : t.t.allocFor = s.t.allocFor) :
    Reserve t := by
  refine ⟨?_, ?_, ?_⟩
  · rw [hpc]; exact h.alone
  · rw [hpc, hfor]; exact h.inside
  · rw [hpc, hfor]; exact h.outside

end Reserve

/-! ### Sections that keep the numbers of containers -/

/-- The numbers that name containers stay, and no reserve gets pages back. -/
structure Kept (x y : Tables) : Prop where
  containerNum : y.containerNum = x.containerNum
  allocFor : y.allocFor = x.allocFor
  used : ∀ c, (x.container c).used ≤ (y.container c).used
  containerID : ∀ p, (y.proc p).containerID = (x.proc p).containerID

namespace Kept

variable {x y z : Tables} {p np : Slot} {page : Option Page} {b : Bool} {pp n : ℤ}

theorem of_calm (h : Calm x y) : Kept x y :=
  ⟨h.containerNum, h.allocFor, h.used, h.containerID⟩

theorem refl (x : Tables) : Kept x x := of_calm (.refl x)

theorem trans (h : Kept x y) (h' : Kept y z) : Kept x z where
  containerNum := h'.containerNum.trans h.containerNum
  allocFor := h'.allocFor.trans h.allocFor
  used c := (h.used c).trans (h'.used c)
  containerID p := (h'.containerID p).trans (h.containerID p)

theorem setProc (x : Tables) (p : Slot) (f : Proc → Proc)
    (h : (f (x.proc p)).containerID = (x.proc p).containerID) : Kept x (x.setProc p f) where
  containerNum := rfl
  allocFor := rfl
  used _ := le_rfl
  containerID q := by
    rw [Tables.setProc_proc]
    split_ifs with hq
    · rw [hq, h]
    · rfl

theorem setContainer (x : Tables) (c : Fin NCONT) (g : Container → Container)
    (h : (g (x.container c)).used = (x.container c).used) : Kept x (x.setContainer c g) where
  containerNum := rfl
  allocFor := rfl
  used d := by
    rw [Tables.setContainer_container]
    split_ifs with hd
    · rw [hd, h]
    · exact le_rfl
  containerID _ := rfl

theorem allocproc (h : x.allocproc = .ok (some (np, y))) : Kept x y := by
  obtain ⟨-, -, rfl⟩ := Tables.allocproc_some h
  have := setProc x np (fun q => { q with state := .embryo, pid := x.nextpid }) rfl
  exact ⟨this.containerNum, this.allocFor, this.used, this.containerID⟩

theorem setKstack (h : x.setKstack np page = (b, y)) : Kept x y := by
  cases page with
  | none => obtain ⟨-, rfl⟩ := Prod.mk.inj h; exact setProc x np _ rfl
  | some m => obtain ⟨-, rfl⟩ := Prod.mk.inj h; exact setProc x np _ rfl

theorem allocKstack (h : x.allocKstack np page = .ok (b, y)) : Kept x y := by
  unfold Tables.allocKstack at h
  split_ifs at h
  · exact setKstack (Except.ok.inj h)
  · split at h
    · cases h
    next mem x' hcon => exact (of_calm (.conalloc hcon)).trans (setKstack (Except.ok.inj h))

theorem insert {k : Creator} (h : k.insert x p np = .ok (b, y)) : Kept x y := by
  have hinsert : ∀ c, x.insertProcess c np = .ok (b, y) → Kept x y := by
    intro c hc
    obtain ⟨-, rfl⟩ | ⟨d, i, -, -, -, rfl⟩ := Tables.insertProcess_ok hc
    · exact refl _
    · exact setContainer x d _ rfl
  cases k with
  | join c pp => exact hinsert c h
  | fork =>
    simp only [Creator.insert, Tables.forkInsert] at h
    split_ifs at h
    · exact hinsert _ h
    · obtain ⟨-, rfl⟩ := Prod.mk.inj (Except.ok.inj h)
      exact refl _

theorem removeProcess (h : x.removeProcess p pp n = .ok y) : Kept x y := by
  obtain rfl | ⟨c, i, -, -, rfl⟩ := Tables.removeProcess_ok h
  · exact refl _
  · exact setContainer x c _ rfl

theorem exitLocked (x : Tables) (p : Slot) : Kept x (x.exitLocked p) := by
  obtain ⟨u, hcalm, hu⟩ := Calm.exitLocked x p
  rw [hu]
  exact (of_calm hcalm).trans (setProc u p _ rfl)

theorem addContainer {pages : Fin MCONT → Option Page} (h : x.addContainer pages = .ok y) :
    Kept x y := by
  obtain ⟨c, -, rfl⟩ := Tables.addContainer_ok h
  exact setContainer x c _ rfl

end Kept

/-! ### What a step does to `allocFor` -/

/-- How `allocFor` and the place of the acting process change. -/
inductive AllocMove (s : Sys) (a : Act) (t : Sys) : Prop
  | same (pc : t.pc = s.pc) (allocFor : t.t.allocFor = s.t.allocFor)
  | call (p : Slot) (c : Call) (pc : Pc) (act : a = .call p c) (eq : t.pc = Function.update s.pc p pc)
      (old : (s.pc p).reserve = none) (reserve : pc.reserve = none)
      (busy : pc.busy → OneAtATime s a → ∀ q, (s.pc q).busy = false)
      (allocFor : t.t.allocFor = s.t.allocFor)
  | set (p : Slot) (c pp : ℤ) (old : s.pc p = .setAlloc c pp)
      (eq : t.pc = Function.update s.pc p (.alloc (.join c pp))) (allocFor : t.t.allocFor = c)
  | within (p : Slot) (pc : Pc) (eq : t.pc = Function.update s.pc p pc)
      (reserve : pc.reserve = (s.pc p).reserve) (busy : pc.busy → (s.pc p).busy)
      (allocFor : t.t.allocFor = s.t.allocFor)
  | noSlot (p : Slot) (c pp : ℤ) (e : Env) (act : a = .step p e)
      (old : s.pc p = .alloc (.join c pp)) (none : ∀ q, s.state q ≠ .unused)
      (eq : t.pc = Function.update s.pc p .user) (allocFor : t.t.allocFor = s.t.allocFor)
  | noStack (p np : Slot) (c pp : ℤ) (e : Env) (act : a = .step p e)
      (old : s.pc p = .kstack (.join c pp) np)
      (none : s.t.allocFor = 0 ∨ s.t.Exhausted s.t.allocFor)
      (eq : t.pc = Function.update s.pc p .user) (allocFor : t.t.allocFor = s.t.allocFor)
  | reset (p np : Slot) (k : Creator) (old : s.pc p = .resetAlloc k np)
      (eq : t.pc = Function.update s.pc p (.copy k np)) (allocFor : t.t.allocFor = 0)

section Sections
variable {x y : Tables} {p np : Slot} {page : Option Page} {b : Bool}

theorem Tables.setKstack_ok (h : x.setKstack np page = (b, y)) :
    b = page.isSome ∧ (y.proc np).kstack = page ∧ y.container = x.container ∧
      y.allocFor = x.allocFor := by
  cases page with
  | none =>
    obtain ⟨rfl, rfl⟩ := Prod.mk.inj h
    exact ⟨rfl, by simp, rfl, rfl⟩
  | some m =>
    obtain ⟨rfl, rfl⟩ := Prod.mk.inj h
    exact ⟨rfl, by simp, rfl, rfl⟩

/-- The kernel stack is the answer of `kalloc` or the next page of the reserve. -/
theorem Tables.allocKstack_ok (h : x.allocKstack np page = .ok (b, y)) :
    y.allocFor = x.allocFor ∧
      (x.allocFor = 0 ∧ b = page.isSome ∧ (y.proc np).kstack = page ∧ y.container = x.container ∨
        x.allocFor ≠ 0 ∧ ∃ (c : Fin NCONT) (i : Fin MCONT), x.allocFor = c.val ∧
          (x.container c).used = i.val ∧ b = ((x.container c).startAddr i).isSome ∧
          (y.proc np).kstack = (x.container c).startAddr i) := by
  unfold Tables.allocKstack at h
  split_ifs at h with h0
  · obtain ⟨hb, hk, hc, hfor⟩ := Tables.setKstack_ok (Except.ok.inj h)
    exact ⟨hfor, .inl ⟨h0, hb, hk, hc⟩⟩
  · split at h
    · cases h
    next mem t' hcon =>
      obtain ⟨c, i, hc, hi, rfl, rfl⟩ := Tables.conalloc_ok hcon
      obtain ⟨hb, hk, -, hfor⟩ := Tables.setKstack_ok (Except.ok.inj h)
      exact ⟨hfor, .inr ⟨h0, c, i, hc, hi, hb, hk⟩⟩

theorem Tables.allocproc_none (h : x.allocproc = .ok none) (q : Slot) :
    (x.proc q).state ≠ .unused := by
  unfold Tables.allocproc at h
  split at h
  next hn =>
    have := Fin.find?_eq_none_iff.mp hn q
    simpa using this
  next =>
    split_ifs at h
    cases Except.ok.inj h

end Sections

theorem call_allocMove {p : Slot} {c : Call} (hpc : s.pc p = .user)
    (h : callStep s p c = .ok t) : AllocMove s (.call p c) t := by
  have hold : (s.pc p).reserve = none := by rw [hpc]; rfl
  cases c with
  | fork => cases h; exact .call p _ _ rfl rfl hold rfl (fun _ hg => hg) rfl
  | join_container c => cases h; exact .call p _ _ rfl rfl hold rfl (fun _ hg => hg) rfl
  | leave_container => cases h; exact .call p _ _ rfl rfl hold rfl (fun _ hg => hg) rfl
  | create_container => cases h; exact .call p _ _ rfl rfl hold rfl (fun _ hg => hg) rfl
  | containerProcessNum c =>
    simp only [callStep] at h
    split at h
    · cases h
    · cases h; exact .call p _ _ rfl rfl hold rfl (fun hb => by cases hb) rfl
  | exit =>
    simp only [callStep] at h
    split_ifs at h
    cases h
    exact .call p _ _ rfl rfl hold rfl (fun hb => by cases hb) rfl
  | wait => cases h; exact .call p _ _ rfl rfl hold rfl (fun hb => by cases hb) rfl
  | kill pid =>
    cases h
    exact .call p _ _ rfl rfl hold rfl (fun hb => by cases hb) (Calm.kill s.t pid).allocFor
  | scheduler_log_on => cases h; exact .call p _ _ rfl rfl hold rfl (fun hb => by cases hb) rfl

theorem section_allocMove {p : Slot} {e : Env} (h : sectionStep s p e = .ok t) :
    AllocMove s (.step p e) t := by
  unfold sectionStep at h
  split at h
  next => cases h
  next c pp hpc => cases h; exact .set p c pp hpc rfl rfl
  next k hpc =>
    split at h
    next => cases h
    next hnone =>
      cases h
      cases k with
      | fork => exact .within p _ rfl (by rw [hpc]; rfl) (fun hb => by cases hb) rfl
      | join c pp => exact .noSlot p c pp e rfl hpc (Tables.allocproc_none hnone) rfl rfl
    next np t' hsome =>
      cases h
      obtain ⟨-, -, rfl⟩ := Tables.allocproc_some hsome
      exact .within p _ rfl (by rw [hpc]; rfl) (fun _ => by rw [hpc]; rfl) rfl
  next k np hpc =>
    split at h
    next => cases h
    next t' hstack =>
      cases h
      obtain ⟨hfor, hpage⟩ := Tables.allocKstack_ok hstack
      cases k with
      | fork => exact .within p _ rfl (by rw [hpc]; rfl) (fun hb => by cases hb) hfor
      | join c pp =>
        refine .noStack p np c pp e rfl hpc ?_ rfl hfor
        rcases hpage with ⟨h0, -⟩ | ⟨-, d, i, hd, hi, hnone, -⟩
        · exact .inl h0
        · exact .inr ⟨d, i, hd, hi, by simpa using hnone.symm⟩
    next t' hstack =>
      have hfor := (Tables.allocKstack_ok hstack).1
      split at h <;> cases h <;>
        exact .within p _ rfl (by rw [hpc]; rfl) (fun _ => by rw [hpc]; rfl) hfor
  next k np hpc => cases h; exact .reset p np k hpc rfl rfl
  next k np hpc =>
    split_ifs at h <;> cases h
    · exact .within p _ rfl (by rw [hpc]; rfl) (fun _ => by rw [hpc]; rfl) rfl
    · exact .within p _ rfl (by rw [hpc]; rfl) (fun hb => by cases hb) rfl
  next k np hpc =>
    split at h
    next => cases h
    next t' hins =>
      cases h
      have hfor : t'.allocFor = s.t.allocFor := (Kept.insert hins).allocFor
      exact .within p _ rfl (by rw [hpc]; rfl) (fun hb => by cases hb) hfor
    next t' hins =>
      cases h
      exact .within p _ rfl (by rw [hpc]; rfl) (fun _ => by rw [hpc]; rfl)
        (Kept.insert hins).allocFor
  next k np hpc =>
    cases h
    exact .within p _ rfl (by rw [hpc]; rfl) (fun _ => by rw [hpc]; rfl) rfl
  next k np hpc =>
    split at h <;> cases h
    · exact .within p _ rfl (by rw [hpc]; rfl) (fun hb => by cases hb) rfl
    · exact .within p _ rfl (by rw [hpc]; rfl) (fun _ => by rw [hpc]; rfl) rfl
  next pp hpc =>
    split at h
    next => cases h
    next t' hrem =>
      split_ifs at h
      cases h
      exact .within p _ rfl (by rw [hpc]; rfl) (fun _ => by rw [hpc]; rfl)
        (Kept.removeProcess hrem).allocFor
  next b hpc =>
    cases h
    exact .within p _ rfl (by rw [hpc]; rfl) (fun hb => by cases hb) (Kept.exitLocked s.t p).allocFor
  next hpc =>
    split at h
    next => cases h; exact .within p _ rfl (by rw [hpc]; rfl) (fun hb => by cases hb) rfl
    next => cases h; exact .within p _ rfl (by rw [hpc]; rfl) (fun hb => by cases hb) rfl
    next => cases h; exact .within p _ rfl (by rw [hpc]) (fun hb => by cases hb) rfl
  next hpc =>
    split at h
    next => cases h
    next t' hadd =>
      cases h
      obtain ⟨c, -, rfl⟩ := Tables.addContainer_ok hadd
      exact .within p _ rfl (by rw [hpc]; rfl) (fun _ => by rw [hpc]; rfl) rfl
  next hpc => cases h; exact .within p _ rfl (by rw [hpc]; rfl) (fun hb => by cases hb) rfl

theorem step_allocMove (h : step s a = .ok t) : AllocMove s a t := by
  cases a with
  | call p c =>
    simp only [step] at h
    split_ifs at h with hp
    exact call_allocMove hp.2 h
  | step p e =>
    simp only [step] at h
    split_ifs at h
    exact section_allocMove h
  | yield p =>
    simp only [step] at h
    split_ifs at h
    cases h
    exact .same rfl rfl
  | sleep p chan =>
    simp only [step] at h
    split_ifs at h
    cases h
    exact .same rfl rfl
  | wakeup chan => cases h; exact .same rfl rfl
  | sched n =>
    simp only [step] at h
    split at h
    next => cases h
    next x u hsched => cases h; exact .same rfl (Calm.schedStep hsched).allocFor

theorem Reserve.step (h : Reserve s) (hone : OneAtATime s a) (hg : JoinsGetStack s a)
    (ht : Containers.step s a = .ok t) : Reserve t := by
  cases step_allocMove ht with
  | same hpc hfor => exact h.same hpc hfor
  | call p c pc hact hpc hold hres hbusy hfor =>
    exact h.move hpc (fun hb => .inr (hbusy hb hone)) (.inr ⟨hres, .inr ⟨hold, hfor⟩⟩)
  | set p c pp hold hpc hfor =>
    exact h.move hpc (fun _ => .inl (by rw [hold]; rfl)) (.inl (by rw [hfor]; rfl))
  | within p pc hpc hres hbusy hfor =>
    refine h.move hpc (fun hb => .inl (hbusy hb)) ?_
    cases hp : (s.pc p).reserve with
    | none => exact .inr ⟨hres.trans hp, .inr ⟨rfl, hfor⟩⟩
    | some c => exact .inl (by rw [hres, hp, hfor, h.inside p c hp])
  | noSlot p c pp e hact hold hnone hpc hfor =>
    -- the early return leaves `allocFor` as it is, which does no harm if it is 0
    have hc : c = 0 := by
      by_contra hc
      subst hact
      simp only [JoinsGetStack, hold] at hg
      obtain ⟨q, hq⟩ := hg hc
      exact hnone q hq
    have hzero : t.t.allocFor = 0 := by
      rw [hfor, h.inside p c (by rw [hold]; rfl), hc]
    exact h.move hpc (fun hb => by cases hb) (.inr ⟨rfl, .inl ⟨by rw [hold]; rfl, hzero⟩⟩)
  | noStack p np c pp e hact hold hnone hpc hfor =>
    have hin : s.t.allocFor = c := h.inside p c (by rw [hold]; rfl)
    have hzero : t.t.allocFor = 0 := by
      rcases hnone with h0 | hex
      · rw [hfor, h0]
      · by_contra hne
        subst hact
        simp only [JoinsGetStack, hold] at hg
        rw [hin] at hex
        exact hg (by rwa [hfor, hin] at hne) hex
    exact h.move hpc (fun hb => by cases hb) (.inr ⟨rfl, .inl ⟨by rw [hold]; rfl, hzero⟩⟩)
  | reset p np k hold hpc hfor =>
    exact h.move hpc (fun _ => .inl (by rw [hold]; rfl))
      (.inr ⟨rfl, .inl ⟨by rw [hold]; rfl, hfor⟩⟩)

/-- The tables after the section that gets the kernel stack. -/
theorem kstack_step {p np : Slot} {k : Creator} {e : Env} (hp : s.pc p = .kstack k np)
    (ht : step s (.step p e) = .ok t) :
    ∃ b u, s.t.allocKstack np e.page = .ok (b, u) ∧ t.t = u := by
  simp only [step] at ht
  split_ifs at ht
  unfold sectionStep at ht
  rw [hp] at ht
  dsimp only at ht
  split at ht
  next => cases ht
  next u hu => cases ht; exact ⟨_, u, hu, rfl⟩
  next u hu => split at ht <;> cases ht <;> exact ⟨_, u, hu, rfl⟩

/-! ### Runs -/

theorem Booted.reserve (h : Booted s) : Reserve s := by
  obtain ⟨page, t, ht, rfl⟩ := h
  obtain ⟨t', ht', -, -, hfor, -⟩ := Tables.userinit_ok page
  cases Except.ok.inj (ht.symm.trans ht')
  exact ⟨fun p q hp => (nomatch hp), fun q c hq => (nomatch hq), fun _ => hfor⟩

/-- Outside `joinContainer` nobody is between the two assignments. -/
theorem Pc.reserve_of_not_joining {pc : Pc} (h : pc.joining = false) : pc.reserve = none := by
  cases pc with
  | alloc k | kstack k np | resetAlloc k np =>
    cases k with
    | fork => rfl
    | join c pp => cases h
  | _ => rfl

theorem Reserve.stacksOk (h : Reserve s) : StacksOk s where
  idle hall := h.outside fun q => Pc.reserve_of_not_joining (hall q)
  fork p np e t hp ht := by
    have hzero : s.t.allocFor = 0 := by
      refine h.outside fun q => ?_
      by_cases hq : q = p
      · rw [hq, hp]; rfl
      · cases hr : (s.pc q).reserve with
        | none => rfl
        | some c => exact absurd (h.alone q p (Pc.busy_of_reserve hr) (by rw [hp]; rfl)) hq
    obtain ⟨b, u, hstack, hu⟩ := kstack_step hp ht
    rw [hu]
    rcases (Tables.allocKstack_ok hstack).2 with ⟨-, -, hk, hc⟩ | ⟨hne, -⟩
    · exact ⟨hk, hc⟩
    · exact absurd hzero hne
  join p np c pp e t hp hc ht := by
    have hin : s.t.allocFor = c := h.inside p c (by rw [hp]; rfl)
    obtain ⟨b, u, hstack, hu⟩ := kstack_step hp ht
    rw [hu]
    rcases (Tables.allocKstack_ok hstack).2 with ⟨h0, -⟩ | ⟨-, k, i, hk, hi, -, hpage⟩
    · exact absurd (hin.symm.trans h0) hc
    · exact ⟨k, i, hin.symm.trans hk, hi, hpage⟩

/-- In every run of these calls one at a time in which every `joinContainer` into a
container other than 0 gets its slot and its kernel stack, `allocFor` is 0 whenever no
`joinContainer` executes and every kernel stack comes from where it should. -/
theorem stacksOk_of_joinsGetStack
    (hs : Reach step (fun s a => OneAtATime s a ∧ JoinsGetStack s a) Booted s) : StacksOk s := by
  have h : Reserve s :=
    hs.invariant (fun _ => Booted.reserve) fun _ _ _ h hg ht => h.step hg.1 hg.2 ht
  exact h.stacksOk

/-! ### A join that gets no kernel stack -/

instance (s : Sys) (a : Act) : Decidable (OneAtATime s a) :=
  match a with
  | .call _ .fork | .call _ (.join_container _) | .call _ .leave_container
  | .call _ .create_container => inferInstanceAs (Decidable (∀ q, (s.pc q).busy = false))
  | .call _ (.containerProcessNum _) | .call _ .exit | .call _ .wait | .call _ (.kill _)
  | .call _ .scheduler_log_on | .step _ _ | .yield _ | .sleep _ _ | .wakeup _ | .sched _ =>
    .isTrue trivial

instance (t : Tables) (containerID : ℤ) : Decidable (t.Exhausted containerID) :=
  inferInstanceAs (Decidable (∃ (c : Fin NCONT) (i : Fin MCONT), containerID = c.val ∧
    (t.container c).used = i.val ∧ (t.container c).startAddr i = none))

instance (s : Sys) (a : Act) : Decidable (JoinsGetStack s a) :=
  match a with
  | .step p _ =>
    match h : s.pc p with
    | .alloc (.join c _) => decidable_of_iff (c ≠ 0 → ∃ q, s.state q = .unused)
        (by simp only [JoinsGetStack, h])
    | .kstack (.join c _) _ => decidable_of_iff (c ≠ 0 → ¬ s.t.Exhausted c)
        (by simp only [JoinsGetStack, h])
    | .user | .setAlloc _ _ | .alloc .fork | .kstack .fork _ | .resetAlloc _ _ | .copy _ _
    | .list _ _ | .fields _ _ | .publish _ _ | .delist _ | .exiting _ | .waiting
    | .initContainer | .createReturn => .isTrue (by simp only [JoinsGetStack, h])
  | .call _ _ | .yield _ | .sleep _ _ | .wakeup _ | .sched _ => .isTrue trivial

/-- A child joins container 1 on a machine with enough memory. -/
theorem stacksOk_after_join :
    ∃ s, s.containerID 2 = 1 ∧ (s.t.proc 2).kstack = some 16384 ∧ StacksOk s := by
  have hboot : Reach step (fun s a => OneAtATime s a ∧ JoinsGetStack s a) Booted firstBoot :=
    .start booted_firstBoot
  obtain ⟨s, hs, ht⟩ := hboot.of_endsIn
    (fun s => decide (s.containerID 2 = 1) && decide ((s.t.proc 2).kstack = some 16384))
    joinRun (by decide +kernel)
  simp only [Bool.and_eq_true, decide_eq_true_eq] at ht
  exact ⟨s, ht.1, ht.2, stacksOk_of_joinsGetStack hs⟩

/-- The first process joins container 5, which nobody has created: the call fails, and
`allocFor` stays 5. -/
theorem failed_join_keeps_allocFor :
    ∃ s, Reach step OneAtATime Booted s ∧ ¬ StacksOk s := by
  have hboot : Reach step OneAtATime Booted firstBoot := .start booted_firstBoot
  obtain ⟨s, hs, ht⟩ := hboot.of_endsIn
    (fun s => decide (∀ q, (s.pc q).joining = false) && decide (s.t.allocFor = 5))
    (turns 2 ++ .call 0 (.join_container 5) :: sections 0 3) (by decide +kernel)
  simp only [Bool.and_eq_true, decide_eq_true_eq] at ht
  obtain ⟨hidle, hfor⟩ := ht
  refine ⟨s, hs, fun h => ?_⟩
  have := h.idle hidle
  omega

end Xv6Container.Containers
