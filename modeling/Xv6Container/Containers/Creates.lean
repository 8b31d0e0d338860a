import Mathlib.Data.List.Nodup
import Xv6Container.Containers.Barrier

/-! Container ids. `addContainer` counts `containerNum` up without the lock, reads it again
under `ctable.lock` to find the container it initialises, and `sys_create_container` reads it a
third time for the id that it returns. Two calls that overlap get the same id; calls that do not
overlap get different ones. -/

namespace Xv6Container.Containers

open Lib

variable {s t : Sys} {a : Act} {p q : Slot}

/-- What calls of `create_container` do: a container gets its process count and its pages, an id
is returned. -/
inductive Made where
  | init (c : ℤ)
  | ret (c : ℤ)
  deriving DecidableEq

/-- What a section of `create_container` does. -/
def made (s : Sys) : Act → Option Made
  | .step p _ =>
    match s.pc p with
    | .initContainer => some (.init (s.t.containerNum - 1))
    | .createReturn => some (.ret (s.t.containerNum - 1))
    | _ => none
  | _ => none

def Made.init? : Made → Option ℤ
  | .init c => some c
  | .ret _ => none

def Made.ret? : Made → Option ℤ
  | .init _ => none
  | .ret c => some c

/-- The containers that have been initialised, and the ids that have been returned. -/
def inits (l : List Made) : List ℤ := l.filterMap Made.init?
def rets (l : List Made) : List ℤ := l.filterMap Made.ret?

/-- Ids are returned once, and their containers have been initialised once. -/
structure Distinct (l : List Made) : Prop where
  ids : (rets l).Nodup
  once : ∀ c ∈ rets l, (inits l).count c = 1

/-- The place of a process inside `create_container`. -/
def Pc.makes : Pc → Bool
  | .initContainer | .createReturn => true
  | _ => false

/-- No call of `create_container` begins while another one is under way. -/
def CreatesAlone (s : Sys) : Act → Prop
  | .call _ .create_container => ∀ q, (s.pc q).makes = false
  | _ => True

instance (s : Sys) (a : Act) : Decidable (CreatesAlone s a) :=
  match a with
  | .call _ .create_container => inferInstanceAs (Decidable (∀ q, (s.pc q).makes = false))
  | .call _ .fork | .call _ (.join_container _) | .call _ .leave_container
  | .call _ (.containerProcessNum _) | .call _ .exit | .call _ .wait | .call _ (.kill _)
  | .call _ .scheduler_log_on | .step _ _ | .yield _ | .sleep _ _ | .wakeup _ | .sched _ =>
    .isTrue trivial

/-! ### Steps -/

theorem num_of_step (hc : ∀ p, a ≠ .call p .create_container) (ht : step s a = .ok t) :
    t.t.containerNum = s.t.containerNum := by
  cases a with
  | call p c =>
    simp only [step] at ht
    split_ifs at ht
    cases c with
    | create_container => exact absurd rfl (hc p)
    | containerProcessNum c =>
      simp only [callStep] at ht
      split at ht
      · cases ht
      · cases ht
        rfl
    | exit =>
      simp only [callStep] at ht
      split_ifs at ht
      cases ht
      rfl
    | kill pid =>
      cases ht
      exact (Calm.kill s.t pid).containerNum
    | _ => cases ht; rfl
  | step p e => exact (section_unlogged (running_of_step ht).2).num
  | yield p | sleep p chan =>
    simp only [step] at ht
    split_ifs at ht
    cases ht
    rfl
  | wakeup chan =>
    cases ht
    rfl
  | sched n => exact (sched_marks ht).2

theorem init_step {e : Env} (hpc : s.pc p = .initContainer) (ht : step s (.step p e) = .ok t) :
    t.pc = Function.update s.pc p .createReturn := by
  have hsec := (running_of_step ht).2
  simp only [sectionStep, hpc] at hsec
  split at hsec
  · cases hsec
  · cases hsec
    rfl

theorem return_step {e : Env} (hpc : s.pc p = .createReturn) (ht : step s (.step p e) = .ok t) :
    t.pc = Function.update s.pc p .user := by
  have hsec := (running_of_step ht).2
  simp only [sectionStep, hpc] at hsec
  cases hsec
  rfl

theorem made_none {e : Env} (hpc : (s.pc p).makes = false) : made s (.step p e) = none := by
  unfold made
  dsimp only
  split
  next h =>
    rw [h] at hpc
    cases hpc
  next h =>
    rw [h] at hpc
    cases hpc
  next => rfl

/-- Only a call leads into `create_container`. -/
theorem makes_of_section {e : Env} (hpc : (s.pc p).makes = false)
    (ht : step s (.step p e) = .ok t) : (t.pc p).makes = false := by
  have hsec := (running_of_step ht).2
  have hnext : ∀ {f : Slot → Pc} {pc : Pc}, t.pc = Function.update f p pc →
      pc.makes = false → (t.pc p).makes = false := by
    intro f pc hf hmakes
    rw [hf, Function.update_self]
    exact hmakes
  unfold sectionStep at hsec
  split at hsec
  case h_1 => cases hsec
  case h_2 | h_5 | h_8 | h_11 => cases hsec; exact hnext rfl rfl
  case h_14 h => rw [h] at hpc; cases hpc
  case h_13 h => rw [h] at hpc; cases hpc
  case h_6 => split_ifs at hsec <;> cases hsec <;> exact hnext rfl rfl
  case h_10 =>
    split at hsec
    · cases hsec
    · split_ifs at hsec
      cases hsec
      exact hnext rfl rfl
  case h_4 =>
    split at hsec
    · cases hsec
    · cases hsec; exact hnext rfl rfl
    · split at hsec <;> cases hsec <;> exact hnext rfl rfl
  case h_9 | h_12 => split at hsec <;> cases hsec <;> exact hnext rfl rfl
  case h_3 | h_7 =>
    split at hsec
    · cases hsec
    · cases hsec; exact hnext rfl rfl
    · cases hsec; exact hnext rfl rfl

theorem makes_of_call {c : Call} (hc : c ≠ .create_container) (ht : callStep s p c = .ok t) :
    (t.pc p).makes = false := by
  have hnext : ∀ {f : Slot → Pc} {pc : Pc}, t.pc = Function.update f p pc →
      pc.makes = false → (t.pc p).makes = false := by
    intro f pc hf hmakes
    rw [hf, Function.update_self]
    exact hmakes
  cases c with
  | create_container => exact absurd rfl hc
  | containerProcessNum c =>
    simp only [callStep] at ht
    split at ht
    · cases ht
    · cases ht
      exact hnext rfl rfl
  | exit =>
    simp only [callStep] at ht
    split_ifs at ht
    cases ht
    exact hnext rfl rfl
  | _ =>
    cases ht
    exact hnext rfl rfl

/-! ### Calls one at a time -/

/-- The calls so far: while one is under way its container is the last one. -/
structure Counted (l : List Made) (s : Sys) : Prop where
  alone : ∀ p q, (s.pc p).makes → (s.pc q).makes → p = q
  nodup : (inits l).Nodup
  below : ∀ c ∈ rets l, c < s.t.containerNum
  idle : (∀ p, (s.pc p).makes = false) → inits l = rets l
  start : ∀ p, s.pc p = .initContainer →
    inits l = rets l ∧ ∀ c ∈ rets l, c < s.t.containerNum - 1
  finish : ∀ p, s.pc p = .createReturn → inits l = rets l ++ [s.t.containerNum - 1]

theorem Counted.distinct {l : List Made} (h : Counted l s) : Distinct l := by
  have hprefix : ∃ rest, inits l = rets l ++ rest := by
    by_cases hidle : ∀ p, (s.pc p).makes = false
    · exact ⟨[], by rw [List.append_nil]; exact h.idle hidle⟩
    · obtain ⟨p, hp⟩ := not_forall.1 hidle
      cases hpc : s.pc p with
      | initContainer => exact ⟨[], by rw [List.append_nil]; exact (h.start p hpc).1⟩
      | createReturn => exact ⟨_, h.finish p hpc⟩
      | _ =>
        rw [hpc] at hp
        exact absurd rfl hp
  obtain ⟨rest, hrest⟩ := hprefix
  have hnodup := h.nodup
  refine ⟨?_, fun c hc => List.count_eq_one_of_mem h.nodup ?_⟩
  · rw [hrest] at hnodup
    exact (List.nodup_append.1 hnodup).1
  · rw [hrest]
    exact List.mem_append_left rest hc

/-- Nobody enters, leaves or goes on in `create_container`. -/
theorem Counted.same {l : List Made} (h : Counted l s) (hnum : t.t.containerNum = s.t.containerNum)
    (hpc : ∀ q pc, pc.makes → (t.pc q = pc ↔ s.pc q = pc)) : Counted l t := by
  have hmakes : ∀ q, (t.pc q).makes = (s.pc q).makes := by
    intro q
    by_cases hq : (t.pc q).makes
    · rw [(hpc q _ hq).1 rfl]
    · by_cases hs : (s.pc q).makes
      · rw [(hpc q _ hs).2 rfl]
      · rw [Bool.eq_false_of_not_eq_true hq, Bool.eq_false_of_not_eq_true hs]
  constructor
  · intro p q hp hq
    rw [hmakes] at hp hq
    exact h.alone p q hp hq
  · exact h.nodup
  · rw [hnum]
    exact h.below
  · intro hidle
    exact h.idle fun p => (hmakes p).symm.trans (hidle p)
  · intro p hp
    rw [hnum]
    exact h.start p ((hpc p .initContainer rfl).1 hp)
  · intro p hp
    rw [hnum]
    exact h.finish p ((hpc p .createReturn rfl).1 hp)

theorem Counted.call {l : List Made} (h : Counted l s) (hidle : ∀ q, (s.pc q).makes = false)
    (ht : Containers.step s (.call p .create_container) = .ok t) : Counted l t := by
  simp only [Containers.step] at ht
  split_ifs at ht
  cases ht
  obtain hl := h.idle hidle
  have hpc : ∀ q, (Function.update s.pc p .initContainer q).makes → q = p := by
    intro q hq
    by_contra hne
    rw [Function.update_of_ne hne, hidle q] at hq
    cases hq
  constructor
  · intro q r hq hr
    rw [hpc q hq, hpc r hr]
  · exact h.nodup
  · intro c hc
    have := h.below c hc
    show c < s.t.containerNum + 1
    omega
  · intro hnone
    exact hl
  · intro q hq
    refine ⟨hl, fun c hc => ?_⟩
    have := h.below c hc
    show c < s.t.containerNum + 1 - 1
    omega
  · intro q hq
    have hq' : Function.update s.pc p .initContainer q = .createReturn := hq
    obtain rfl := hpc q (by rw [hq']; rfl)
    rw [Function.update_self] at hq'
    cases hq'

theorem Counted.init {l : List Made} {e : Env} (h : Counted l s) (hpc : s.pc p = .initContainer)
    (ht : Containers.step s (.step p e) = .ok t) :
    Counted (l ++ [.init (s.t.containerNum - 1)]) t := by
  have hnum := num_of_step (a := .step p e) (fun _ => nofun) ht
  obtain ⟨hl, hbelow⟩ := h.start p hpc
  have hin : inits (l ++ [.init (s.t.containerNum - 1)]) = inits l ++ [s.t.containerNum - 1] :=
    List.filterMap_append
  have hret : rets (l ++ [.init (s.t.containerNum - 1)]) = rets l := by
    rw [rets, List.filterMap_append]
    exact List.append_nil _
  have hmakes : ∀ q, (t.pc q).makes → q = p := by
    intro q hq
    by_contra hne
    rw [init_step hpc ht, Function.update_of_ne hne] at hq
    exact hne (h.alone q p hq (by rw [hpc]; rfl))
  have hp : t.pc p = .createReturn := by rw [init_step hpc ht, Function.update_self]
  constructor
  · intro q r hq hr
    rw [hmakes q hq, hmakes r hr]
  · rw [hin, List.nodup_append]
    refine ⟨h.nodup, List.nodup_singleton _, fun c hc d hd => ?_⟩
    rw [hl] at hc
    have := hbelow c hc
    rw [List.mem_singleton.1 hd]
    omega
  · rw [hret, hnum]
    exact h.below
  · intro hidle
    have hnone := hidle p
    rw [hp] at hnone
    cases hnone
  · intro q hq
    obtain rfl := hmakes q (by rw [hq]; rfl)
    rw [hp] at hq
    cases hq
  · intro q _
    rw [hin, hret, hnum, hl]

theorem Counted.back {l : List Made} {e : Env} (h : Counted l s) (hpc : s.pc p = .createReturn)
    (ht : Containers.step s (.step p e) = .ok t) :
    Counted (l ++ [.ret (s.t.containerNum - 1)]) t := by
  have hnum := num_of_step (a := .step p e) (fun _ => nofun) ht
  have hl := h.finish p hpc
  have hin : inits (l ++ [.ret (s.t.containerNum - 1)]) = inits l := by
    rw [inits, List.filterMap_append]
    exact List.append_nil _
  have hret : rets (l ++ [.ret (s.t.containerNum - 1)]) = rets l ++ [s.t.containerNum - 1] :=
    List.filterMap_append
  have hidle : ∀ q, (t.pc q).makes = false := by
    intro q
    rw [return_step hpc ht, Function.update_apply]
    split_ifs with hqp
    · rfl
    · rw [Bool.eq_false_iff]
      intro hq
      exact hqp (h.alone q p hq (by rw [hpc]; rfl))
  have hnot : ∀ q, t.pc q ≠ .initContainer ∧ t.pc q ≠ .createReturn := by
    intro q
    have := hidle q
    constructor
    all_goals
      intro hq
      rw [hq] at this
      cases this
  constructor
  · intro q r hq _
    rw [hidle q] at hq
    cases hq
  · rw [hin]
    exact h.nodup
  · intro c hc
    rw [hret, List.mem_append, List.mem_singleton] at hc
    rw [hnum]
    obtain hc | rfl := hc
    · exact h.below c hc
    · omega
  · intro _
    rw [hin, hret, hl]
  · exact fun q hq => absurd hq (hnot q).1
  · exact fun q hq => absurd hq (hnot q).2

theorem Counted.step {l : List Made} (h : Counted l s) (hg : CreatesAlone s a)
    (ht : Containers.step s a = .ok t) : Counted (l ++ (made s a).toList) t := by
  by_cases hcreate : ∃ p, a = .call p .create_container
  · obtain ⟨p, rfl⟩ := hcreate
    rw [show made s (.call p .create_container) = none from rfl, Option.toList_none,
      List.append_nil]
    exact h.call hg ht
  by_cases hmaking : ∃ p e, a = .step p e ∧ (s.pc p).makes
  · obtain ⟨p, e, rfl, hp⟩ := hmaking
    cases hpc : s.pc p with
    | initContainer =>
      rw [show made s (.step p e) = some (.init (s.t.containerNum - 1)) by simp only [made, hpc]]
      exact h.init hpc ht
    | createReturn =>
      rw [show made s (.step p e) = some (.ret (s.t.containerNum - 1)) by simp only [made, hpc]]
      exact h.back hpc ht
    | _ =>
      rw [hpc] at hp
      cases hp
  -- nothing happens in `create_container`
  have hnone : made s a = none := by
    cases a with
    | step p e =>
      have hp : (s.pc p).makes = false :=
        Bool.eq_false_iff.2 fun hp => hmaking ⟨p, e, rfl, hp⟩
      exact made_none hp
    | _ => rfl
  rw [hnone, Option.toList_none, List.append_nil]
  refine h.same (num_of_step (fun p hp => hcreate ⟨p, hp⟩) ht) fun q pc hpc => ?_
  by_cases hq : t.pc q = s.pc q
  · rw [hq]
  have hout : (t.pc q).makes = false ∧ (s.pc q).makes = false := by
    obtain ⟨c, rfl, hc⟩ | ⟨e, rfl⟩ := step_pc ht hq
    · simp only [Containers.step] at ht
      split_ifs at ht with hp
      rw [hp.2]
      exact ⟨makes_of_call (fun hc => hcreate ⟨q, by rw [hc]⟩) hc, rfl⟩
    · have hs : (s.pc q).makes = false := Bool.eq_false_iff.2 fun hp => hmaking ⟨q, e, rfl, hp⟩
      exact ⟨makes_of_section hs ht, hs⟩
  constructor
  all_goals
    intro h
    rw [h, hpc] at hout
    obtain ⟨hout, hout'⟩ := hout
    contradiction

theorem Booted.counted (h : Booted s) : Counted [] s := by
  obtain ⟨page, t, ht, rfl⟩ := h
  constructor
  · intro p q hp
    cases hp
  · exact List.nodup_nil
  · exact nofun
  · exact fun _ => rfl
  · exact nofun
  · exact nofun

/-- While no call begins inside another one, the ids that have been returned are distinct and
their containers have been initialised once. -/
theorem creates_distinct {l : List Made} (hs : Booted s) (hl : Trace step CreatesAlone made s l t) :
    Distinct l := by
  have hcount := hl.invariant (I := Counted) hs.counted fun _ _ _ _ h hg ht => h.step hg ht
  exact hcount.distinct

/-- Two calls of the first process, one after the other. -/
theorem creates_distinct_two : ∃ l t, Trace step CreatesAlone made firstBoot l t ∧
    rets l = [1, 2] ∧ Distinct l := by
  obtain ⟨l, t, hl, hrets⟩ :=
    (Trace.nil : Trace step CreatesAlone made firstBoot [] firstBoot).of_watch
      (fun l _ => decide (rets l = [1, 2])) (turns 2 ++ .call 0 .create_container ::
        sections 0 2 ++ .call 0 .create_container :: sections 0 2) (by decide +kernel)
  exact ⟨l, t, hl, of_decide_eq_true hrets, creates_distinct booted_firstBoot hl⟩

/-- The first process and its child call `create_container` at the same time: both get id 2, and
nobody gets container 1. -/
theorem creates_same_id : ∃ l t, Trace step always made firstBoot l t ∧ ¬Distinct l := by
  obtain ⟨l, t, hl, hrets⟩ :=
    (Trace.nil : Trace step always made firstBoot [] firstBoot).of_watch
      (fun l _ => decide (rets l = [2, 2])) (turns 2 ++ .call 0 .fork :: sections 0 6 ++
        [.sched 1, .sched 1, .call 0 .create_container, .call 1 .create_container] ++
        sections 0 2 ++ sections 1 2) (by decide +kernel)
  refine ⟨l, t, hl, fun h => ?_⟩
  have hids := h.ids
  rw [of_decide_eq_true hrets] at hids
  exact absurd hids (by decide)

end Xv6Container.Containers
