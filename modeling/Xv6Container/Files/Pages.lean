import Xv6Container.Files.Model
import Xv6Container.Memory.Pages

/-! Pages and pipes. The calls about files move pages between the free list and the pipes. -/

namespace Xv6Container.Files

open Lib Names
open Fs hiding Stop

variable {α : Type} {s t : State} {p q : Slot} {fd : Fd} {f : FileId} {pg : Page} {w : Bool}

/-- The places of a page in the free list and among the pipes. -/
def State.held (s : State) (pg : Page) : ℤ :=
  s.kmem.count pg + if (s.pipes pg).isSome then 1 else 0

/-- A call that moves pages, as long as none of them is in two places. -/
def Holds (x : Run α) : Prop :=
  ∀ s, (∀ pg, s.held pg ≤ 1) → Ends (fun _ t => t.held = s.held) (fun _ => True) (x s)

namespace Holds

theorem bind {β : Type} {x : Run α} {k : α → Run β} (hx : Holds x) (hk : ∀ a, Holds (k a)) :
    Holds (x >>= k) := by
  intro s hs
  refine (hx s hs).bind fun a t ht => ?_
  rw [← ht] at hs ⊢
  exact hk a t hs

theorem ret (a : α) : Holds (pure a) := fun _ _ => ends_ok.2 rfl

theorem stop (r : Stop) : Holds (throw r : Run α) := fun _ _ => ends_error.2 trivial

theorem read {k : State → Run α} (h : ∀ s, Holds (k s)) : Holds (get >>= k) := fun s => h s s

theorem ite {c : Prop} [Decidable c] {x y : Run α} (hx : Holds x) (hy : Holds y) :
    Holds (if c then x else y) := by
  split_ifs
  · exact hx
  · exact hy

theorem change {h : State → State} (hheld : ∀ s, (h s).held = s.held) :
    Holds (modify h : Run PUnit) := fun s _ => ends_ok.2 (hheld s)

/-- The file system has no pages of its own here. -/
theorem onFs (x : Names.Run α) : Holds (onFs x) := by
  intro s _
  unfold Files.onFs
  cases x s.fs with
  | ok a fs => exact ends_ok.2 rfl
  | error r fs => exact ends_error.2 trivial

theorem forM {β : Type} {k : β → Run PUnit} (l : List β) (h : ∀ b, Holds (k b)) :
    Holds (l.forM k) := by
  induction l with
  | nil => exact ret _
  | cons b l ih => exact (h b).bind fun _ => ih

theorem discard {x : Run α} (h : Holds x) : Holds (Functor.discard x : Run PUnit) :=
  fun s hs => (h s hs).discard.post fun _ _ ⟨_, ht⟩ => ht

end Holds

theorem onKmem_held {x : Memory.Run α} {Q : α → Kmem → Prop}
    (h : Ends Q (fun _ => True) (x s.kmem)) :
    Ends (fun a t => ∃ kmem, t = { s with kmem := kmem } ∧ Q a kmem) (fun _ => True)
      (onKmem x s) := by
  unfold onKmem
  cases hx : x s.kmem with
  | ok a kmem => exact ends_ok.2 ⟨kmem, rfl, h.1 a kmem hx⟩
  | error r kmem => exact ends_error.2 trivial

/-! ### Pipes -/

/-- The places of a page after another one has become a pipe or has been one. -/
theorem held_update {kmem : Kmem} {o : Option Pipes.Pipe} {log : List PageEvent}
    {pipe : FileId → Option Page} {fs : Names.State} (pg' : Page) :
    State.held ⟨fs, pipe, Function.update s.pipes pg o, kmem, log⟩ pg' =
      kmem.count pg' + if pg' = pg then (if o.isSome then 1 else 0)
        else if (s.pipes pg').isSome then 1 else 0 := by
  show kmem.count pg' + (if (Function.update s.pipes pg o pg').isSome then 1 else 0) = _
  by_cases hpg : pg' = pg
  · subst hpg
    rw [Function.update_self, if_pos rfl]
  · rw [Function.update_of_ne hpg, if_neg hpg]

theorem pipeclose_holds : Holds (pipeclose pg w) := by
  intro s _
  simp only [pipeclose, run_get_bind]
  cases hq : s.pipes pg with
  | none => exact ends_error.2 trivial
  | some q =>
    simp only [setPipe, record, run_modify_bind]
    split_ifs
    · refine (onKmem_held Memory.kfree_count).bind fun _ t ⟨kmem, ht, hcount⟩ => ?_
      rw [ht]
      simp only [run_modify_bind, run_modify, ends_ok, Function.update_idem]
      funext pg'
      rw [held_update, hcount, State.held, Memory.hit]
      by_cases hpg : pg' = pg
      · rw [hpg, hq]
        simp
      · simp [hpg, Ne.symm hpg]
    · refine ends_ok.2 ?_
      funext pg'
      rw [held_update, State.held]
      by_cases hpg : pg' = pg
      · rw [hpg, hq]
        simp
      · simp [hpg]

theorem fileclose_holds : Holds (fileclose f) := by
  refine .read fun s => (Holds.onFs _).bind fun _ => .ite ?_ (.ret _)
  split
  · exact .ret _
  · exact .bind (.change fun _ => rfl) fun _ => pipeclose_holds

theorem pipealloc_holds : Holds pipealloc := by
  refine (Holds.onFs _).bind fun o => ?_
  split
  · exact .ret _
  · refine (Holds.onFs _).bind fun o => ?_
    split
    · exact fileclose_holds.bind fun _ => .ret _
    next f0 _ _ f1 =>
      intro s hs
      refine (onKmem_held Memory.kalloc_count).bind fun o t ⟨kmem, ht, hcount⟩ => ?_
      subst ht
      cases o with
      | none =>
        have hsame : State.held { s with kmem := kmem } = s.held := by
          funext pg
          have hpg := hcount pg
          rw [Memory.hit_none, zero_add] at hpg
          rw [State.held, hpg]
          rfl
        rw [← hsame] at hs ⊢
        exact (fileclose_holds.bind fun _ => fileclose_holds.bind fun _ => .ret _) _ hs
      | some pg =>
        simp only [setPipe, record, setEnd, run_modify_bind, run_pure, ends_ok]
        funext pg'
        have hpg := hcount pg'
        have hle := hs pg'
        have hnonneg : 0 ≤ kmem.count pg' := Int.natCast_nonneg _
        rw [held_update, State.held]
        rw [State.held] at hle
        rw [Memory.hit] at hpg
        by_cases hne : pg' = pg
        · subst hne
          rw [if_pos rfl] at hpg
          -- a page on the free list was no pipe
          have hnone : (s.pipes pg').isSome = false := by
            by_contra hpipe
            rw [if_pos (Bool.eq_true_of_not_eq_false hpipe)] at hle
            omega
          rw [hnone, if_pos rfl, Option.isSome_some, if_pos rfl, if_neg Bool.false_ne_true]
          omega
        · rw [if_neg fun h => hne (Option.some.inj h).symm] at hpg
          rw [if_neg hne]
          omega

/-! ### Calls -/

theorem sysPipe_holds : Holds (sysPipe p) := by
  refine pipealloc_holds.bind fun o => ?_
  split
  · exact .ret _
  · refine (Holds.onFs _).bind fun o => ?_
    split
    · exact fileclose_holds.bind fun _ => fileclose_holds.bind fun _ => .ret _
    · refine (Holds.onFs _).bind fun o => ?_
      split
      · refine (Holds.onFs _).bind fun _ => ?_
        exact fileclose_holds.bind fun _ => fileclose_holds.bind fun _ => .ret _
      · exact .ret _

theorem sysDup_holds : Holds (sysDup p fd) := by
  refine .read fun s => ?_
  split
  · exact .ret _
  · refine (Holds.onFs _).bind fun o => ?_
    split
    · exact .ret _
    · exact (Holds.onFs _).bind fun _ => .ret _

theorem sysClose_holds : Holds (sysClose p fd) := by
  refine .read fun s => ?_
  split
  · exact .ret _
  · exact (Holds.onFs _).bind fun _ => fileclose_holds.bind fun _ => .ret _

theorem exit_holds : Holds (exit p) := by
  have hclose : Holds (closeAll p) := by
    refine .forM _ fun fd => .read fun s => ?_
    split
    · exact .ret _
    · exact fileclose_holds.bind fun _ => Holds.onFs _
  exact hclose.bind fun _ => (Holds.onFs _).bind fun _ => Holds.onFs _

theorem forkFiles_holds {containerID : ℤ} : Holds (forkFiles p q containerID) :=
  .read fun _ => .ite (Holds.onFs _) (.stop _)

/-- No call about files loses a page or puts it in two places. -/
theorem call_holds (c : Call) (h : ∀ l, c ≠ .memory l) : Holds c.run := by
  cases c with
  | close p fd => exact .discard sysClose_holds
  | dup p fd => exact .discard sysDup_holds
  | pipe p => exact .discard sysPipe_holds
  | fork p q => exact .read fun s => forkFiles_holds
  | joinContainer p q containerID => exact forkFiles_holds.bind fun _ => exit_holds
  | exit p => exact exit_holds
  | memory l => exact absurd rfl (h l)
  | _ => exact .discard (Holds.onFs _)

theorem step_held {c : Call} (hs : ∀ pg, s.held pg ≤ 1) (h : ∀ l, c ≠ .memory l)
    (ht : step s c = .ok t) : t.held = s.held := by
  unfold step at ht
  split_ifs at ht
  cases hrun : c.run s with
  | ok a u =>
    rw [hrun] at ht
    cases ht
    exact (call_holds c h s hs).1 a _ hrun
  | error r u =>
    rw [hrun] at ht
    cases ht

end Xv6Container.Files
