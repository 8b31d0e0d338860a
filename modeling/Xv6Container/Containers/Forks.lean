import Mathlib.Data.Finset.Card
import Xv6Container.Containers.Kills
import Xv6Container.Containers.Parents

/-! What `fork` returns: -1 without a free slot, a kernel stack or memory, -2 when the list of the
container is full, and else the pid of a child that is ready to run. -/

namespace Xv6Container.Containers

open Lib

variable {s t : Sys} {a : Act} {p q np : Slot} {e : Env}

/-- A section of `fork`. -/
def Pc.inFork : Pc → Prop
  | .alloc k | .kstack k _ | .resetAlloc k _ | .copy k _ | .list k _ | .fields k _ | .publish k _ =>
    k = .fork
  | _ => False

/-- `fork` is about to look for an entry in a list that has none. -/
def FullFork (s : Sys) (p : Slot) : Prop := ∃ np, s.pc p = .list .fork np ∧ Creator.fork.Full s.t p

/-- `pid` is a child of `p` that can run. -/
def NewChild (t : Sys) (p : Slot) (pid : ℤ) : Prop :=
  ∃ q, t.parent q = some p ∧ t.pid q = pid ∧ t.state q = .runnable

/-- The next section of a call of `fork`. -/
inductive ForkStep (s t : Sys) (p : Slot) : Prop
  | goesOn (pc : (t.pc p).inFork) (notPublish : ∀ np, s.pc p ≠ .publish .fork np)
  | failed (back : t.pc p = .user) (ret : t.ret p = -1) (notFull : ¬ FullFork s p)
      (notPublish : ∀ np, s.pc p ≠ .publish .fork np)
  | full (back : t.pc p = .user) (ret : t.ret p = -2) (full : FullFork s p)
  | child (np : Slot) (pc : s.pc p = .publish .fork np) (back : t.pc p = .user)
      (ret : t.ret p = s.pid np) (tables : t.t = s.t.setRunnable np)

theorem fork_step (hfork : (s.pc p).inFork) (ht : step s (.step p e) = .ok t) : ForkStep s t p := by
  have hgoto : ∀ {pc : Pc} {x : Tables}, t = s.goto p pc x → pc.inFork →
      (∀ np, s.pc p ≠ .publish .fork np) → ForkStep s t p := by
    rintro pc x rfl hpc hne
    refine .goesOn ?_ hne
    simp only [Sys.goto, Function.update_self]
    exact hpc
  have hback : ∀ {x : Tables}, t = s.back p (-1) x → (∀ np, s.pc p ≠ .list .fork np) →
      (∀ np, s.pc p ≠ .publish .fork np) → ForkStep s t p := by
    rintro x rfl hlist hne
    refine .failed (Function.update_self ..) (Function.update_self ..) ?_ hne
    rintro ⟨np, hpc, -⟩
    exact hlist np hpc
  cases hpc : s.pc p with
  | publish k np =>
    rw [hpc] at hfork
    obtain rfl : k = .fork := hfork
    have hsec := (running_of_step ht).2
    simp only [sectionStep, hpc, Except.ok.injEq] at hsec
    subst hsec
    exact .child np hpc (Function.update_self ..) (Function.update_self ..) rfl
  | list k np =>
    rw [hpc] at hfork
    obtain rfl : k = .fork := hfork
    by_cases hx : ∃ x, Creator.fork.insert s.t p np = .ok (false, x)
    · obtain ⟨x, hx⟩ := hx
      rw [full_step hpc hx ht]
      exact .full (Function.update_self ..) (Function.update_self ..) ⟨np, hpc, insert_full hx rfl⟩
    · obtain ⟨x, -, heq⟩ := listed_step hpc (not_exists.1 hx) ht
      exact hgoto heq rfl (by simp [hpc])
  | alloc k =>
    rw [hpc] at hfork
    obtain ⟨-, heq⟩ | ⟨np, x, -, heq⟩ := alloc_step hpc ht
    · exact hback heq (by simp [hpc]) (by simp [hpc])
    · exact hgoto heq hfork (by simp [hpc])
  | kstack k np =>
    rw [hpc] at hfork
    obtain ⟨x, ⟨-, heq⟩ | ⟨-, heq | heq⟩⟩ := allocKstack_step hpc ht
    · exact hback heq (by simp [hpc]) (by simp [hpc])
    · exact hgoto heq hfork (by simp [hpc])
    · exact hgoto heq hfork (by simp [hpc])
  | resetAlloc k np =>
    rw [hpc] at hfork
    exact hgoto (resetAlloc_step hpc ht) hfork (by simp [hpc])
  | copy k np =>
    rw [hpc] at hfork
    cases he : e.copied with
    | true => exact hgoto (copied_step hpc he ht) hfork (by simp [hpc])
    | false => exact hback (notCopied_step hpc he ht) (by simp [hpc]) (by simp [hpc])
  | fields k np =>
    rw [hpc] at hfork
    exact hgoto (fields_step hpc ht) hfork (by simp [hpc])
  | _ =>
    rw [hpc] at hfork
    exact hfork.elim

/-- The child that `fork` has listed becomes one that can run. -/
theorem published (h : Parents s) (hpc : s.pc p = .publish .fork np)
    (htables : t.t = s.t.setRunnable np) :
    t.parent np = some p ∧ t.pid np = s.pid np ∧ t.state np = .runnable := by
  have hparent := h.named p .fork np (by rw [Sys.stage, hpc]; rfl)
  refine ⟨?_, ?_, ?_⟩
  · rw [← hparent]
    simp [Sys.parent, Sys.core, Proc.core, htables, Tables.setRunnable]
  · simp [Sys.pid, htables, Tables.setRunnable]
  · simp [Sys.state, htables, Tables.setRunnable]

theorem pid_pos (hpids : Pids s) (hq : s.state q ≠ .unused) : 0 < s.pid q := by
  have hrange := (hpids.tickets.range q).1
  have hne := hpids.inUse q hq
  omega

/-! ### Children -/

/-- `p` has `n` children or more that have not been reaped. -/
def HasChildren (s : Sys) (p : Slot) (n : ℕ) : Prop :=
  ∃ C : Finset Slot, C.card = n ∧ ∀ q ∈ C, s.parent q = some p ∧ (s.state q).created

theorem HasChildren.mono {n m : ℕ} (h : HasChildren s p n) (hm : m ≤ n) : HasChildren s p m := by
  obtain ⟨C, hcard, hC⟩ := h
  obtain ⟨D, hD, hcard⟩ := Finset.exists_subset_card_eq (hcard.symm ▸ hm)
  exact ⟨D, hcard, fun q hq => hC q (hD hq)⟩

theorem HasChildren.zero : HasChildren s p 0 := by
  refine ⟨∅, Finset.card_empty, ?_⟩
  intro q hq
  cases hq

theorem HasChildren.exists {n : ℕ} (h : HasChildren s p n) (hn : 0 < n) :
    ∃ q, s.parent q = some p ∧ (s.state q).created := by
  obtain ⟨C, rfl, hC⟩ := h
  obtain ⟨q, hq⟩ := Finset.card_pos.1 hn
  exact ⟨q, hC q hq⟩

/-- A created process is there until it is reaped. -/
theorem created_or_reaped (hh : Holders s) (ht : step s a = .ok t) (hq : (s.state q).created) :
    (t.state q).created ∨
      ∃ r e, a = .step r e ∧ s.pc r = .waiting ∧ s.t.waitScan r = .reaped q := by
  have hupdate : ∀ (x : Slot) (v : ProcState), t.state = Function.update s.state x v →
      ¬ (s.state x).created ∨ v.created → (t.state q).created := by
    intro x v hstate hx
    rw [hstate, Function.update_apply]
    split_ifs with hqx
    · rw [hqx] at hq
      exact hx.resolve_left fun h => h hq
    · exact hq
  have hfresh : ∀ {p' x b}, s.stage p' = b → b.held = some x → ¬ (s.state x).created := by
    intro p' x b hb hheld
    rw [hh.embryo p' x (by rw [hb]; exact hheld)]
    exact id
  cases step_effect ht with
  | quiet _ _ hstate => exact .inl ((hstate q).created.mp hq)
  | leave r _ _ _ hleft hothers _ =>
    left
    by_cases hqr : q = r
    · subst hqr
      obtain hl | hl := hleft
      · rw [hl]
        trivial
      · rw [hl]
        trivial
    · rwa [hothers q hqr]
  | alloc r x _ _ _ _ hunused _ _ _ hstate =>
    exact .inl (hupdate x _ hstate (.inl (by rw [hunused]; exact id)))
  | release r x _ hst _ hstate => exact .inl (hupdate x _ hstate (.inl (hfresh hst rfl)))
  | enterUnlisted _ _ _ _ _ _ hstate | enter _ _ _ _ _ _ _ _ _ _ _ _ _ hstate
  | name _ _ _ _ _ _ _ _ _ hstate | delist _ _ _ _ _ _ _ _ _ hstate =>
    left
    rwa [hstate]
  | publish r x k _ _ _ hstate => exact .inl (hupdate x _ hstate (.inr trivial))
  | exit r _ _ _ _ _ hzombie hothers =>
    left
    by_cases hqr : q = r
    · subst hqr
      rw [hzombie]
      trivial
    · exact (hothers q hqr).created.mp hq
  | reap r x _ _ _ hact hpc hreaped _ _ _ hstate =>
    by_cases hqx : q = x
    · subst hqx
      obtain ⟨e, he⟩ := hact
      exact .inr ⟨r, e, he, hpc, hreaped⟩
    · left
      rwa [hstate, Function.update_of_ne hqx]

theorem zombie_of_exit {b : Bool} (hpc : s.pc p = .exiting b) (ht : step s (.step p e) = .ok t) :
    t.state p = .zombie := by
  rw [exit_step hpc ht]
  change ((s.t.exitLocked p).proc p).state = .zombie
  unfold Tables.exitLocked
  rw [Tables.setProc_self]

/-- A child stays a child of its parent while the parent lives, until the parent reaps it. -/
theorem child_or_reaped (h : Parents s) (ht : step s a = .ok t) (hp : (t.state p).live)
    (hparent : s.parent q = some p) (hq : (s.state q).created) :
    (t.parent q = some p ∧ (t.state q).created) ∨
      ∃ e, a = .step p e ∧ s.pc p = .waiting ∧ s.t.waitScan p = .reaped q := by
  have hreap : ∀ {r e}, a = .step r e → s.pc r = .waiting → s.t.waitScan r = .reaped q →
      ∃ e, a = .step p e ∧ s.pc p = .waiting ∧ s.t.waitScan p = .reaped q := by
    intro r e hact hpc hreaped
    have hr : s.parent q = some r := (Tables.waitScan_reaped hreaped).1
    obtain rfl := Option.some.inj (hparent.symm.trans hr)
    exact ⟨e, hact, hpc, hreaped⟩
  obtain hcreated | ⟨r, e, hact, hpc, hreaped⟩ := created_or_reaped h.holders ht hq
  · cases parent_of_step ht q with
    | same hsame => exact .inl ⟨hsame.trans hparent, hcreated⟩
    | fields r k e _ hpc _ =>
      exact absurd hq (h.not_created_held (p := r) (by rw [Sys.stage, hpc]; rfl))
    | reap r e hact hpc hreaped => exact .inr (hreap hact hpc hreaped)
    | exit r e b hact hpc =>
      subst hact
      have heq := exit_step hpc ht
      have hrp : r ≠ p := by
        rintro rfl
        rw [zombie_of_exit hpc ht] at hp
        exact hp
      refine .inl ⟨?_, hcreated⟩
      have hcore := s.t.exitLocked_core r q
      rw [if_neg fun hr => hrp (Option.some.inj (hr.symm.trans hparent))] at hcore
      rw [heq]
      exact (congrArg Core.parent hcore).trans hparent
  · exact .inr (hreap hact hpc hreaped)

theorem HasChildren.step {n : ℕ} (hc : HasChildren s p n) (h : Parents s) (ht : step s a = .ok t)
    (hp : (t.state p).live) : HasChildren t p n ∨ HasChildren t p (n - 1) ∧
      ∃ e q, a = .step p e ∧ s.pc p = .waiting ∧ s.t.waitScan p = .reaped q := by
  obtain ⟨C, rfl, hC⟩ := hc
  by_cases hreaped : ∃ e q, a = .step p e ∧ s.pc p = .waiting ∧ s.t.waitScan p = .reaped q ∧ q ∈ C
  · obtain ⟨e, q, hact, hpc, hq, hmem⟩ := hreaped
    refine .inr ⟨⟨C.erase q, Finset.card_erase_of_mem hmem, ?_⟩, e, q, hact, hpc, hq⟩
    intro x hx
    obtain ⟨hne, hx⟩ := Finset.mem_erase.1 hx
    obtain hchild | ⟨e', -, -, hx'⟩ := child_or_reaped h ht hp (hC x hx).1 (hC x hx).2
    · exact hchild
    · rw [hq] at hx'
      cases hx'
      exact absurd rfl hne
  · refine .inl ⟨C, rfl, ?_⟩
    intro x hx
    obtain hchild | ⟨e, hact, hpc, hx'⟩ := child_or_reaped h ht hp (hC x hx).1 (hC x hx).2
    · exact hchild
    · exact absurd ⟨e, x, hact, hpc, hx', hx⟩ hreaped

/-- The caller of `fork` has one child more. -/
theorem HasChildren.publish {n : ℕ} (hc : HasChildren s p n) (h : Parents s)
    (ht : Containers.step s (.step p e) = .ok t) (hp : (t.state p).live)
    (hpc : s.pc p = .publish .fork np) (htables : t.t = s.t.setRunnable np) :
    HasChildren t p (n + 1) := by
  obtain ⟨C, rfl, hC⟩ := hc
  have hnew : np ∉ C := by
    intro hmem
    exact h.not_created_held (p := p) (by rw [Sys.stage, hpc]; rfl) (hC np hmem).2
  obtain ⟨hparent, -, hrun⟩ := published h hpc htables
  refine ⟨insert np C, Finset.card_insert_of_notMem hnew, ?_⟩
  intro x hx
  obtain rfl | hx := Finset.mem_insert.1 hx
  · rw [hrun]
    exact ⟨hparent, trivial⟩
  · obtain hchild | ⟨e, -, hwait, -⟩ := child_or_reaped h ht hp (hC x hx).1 (hC x hx).2
    · exact hchild
    · cases hpc.symm.trans hwait

theorem publish_of_stage {k : Creator} (h : s.stage p = .named k np) : s.pc p = .publish k np := by
  unfold Sys.stage at h
  cases hpc : s.pc p with
  | publish k' np' =>
    rw [hpc] at h
    cases h
    rfl
  | exiting b =>
    rw [hpc] at h
    cases b with
    | false => cases h
    | true => cases h
  | _ =>
    rw [hpc] at h
    cases h

/-- A process comes to life when its creator publishes it. -/
theorem live_or_published (ht : step s a = .ok t) (hq : (t.state q).live) :
    (s.state q).live ∨ ∃ r k e, a = .step r e ∧ s.pc r = .publish k q := by
  have hupdate : ∀ (x : Slot) (v : ProcState), t.state = Function.update s.state x v →
      ¬ v.live → (s.state q).live := by
    intro x v hstate hv
    rw [hstate, Function.update_apply] at hq
    split_ifs at hq
    · exact absurd hq hv
    · exact hq
  have he := step_effect ht
  cases he with
  | quiet _ _ hstate => exact .inl ((hstate q).live.mpr hq)
  | leave r _ _ hrun _ hothers _ =>
    left
    by_cases hqr : q = r
    · rw [hqr, hrun]
      trivial
    · rwa [hothers q hqr] at hq
  | alloc _ x _ _ _ _ _ _ _ _ hstate => exact .inl (hupdate x _ hstate id)
  | release _ x _ _ _ hstate => exact .inl (hupdate x _ hstate id)
  | enterUnlisted _ _ _ _ _ _ hstate | enter _ _ _ _ _ _ _ _ _ _ _ _ _ hstate
  | name _ _ _ _ _ _ _ _ _ hstate | delist _ _ _ _ _ _ _ _ _ hstate =>
    left
    rwa [hstate] at hq
  | publish r x k _ hnamed hstage hstate =>
    by_cases hqx : q = x
    · right
      subst hqx
      have hne : t.stage r ≠ s.stage r := by
        rw [hstage, Function.update_self, hnamed]
        rintro ⟨⟩
      obtain ⟨e, hact⟩ := step_of_stage ht hne
      exact ⟨r, k, e, hact, publish_of_stage hnamed⟩
    · left
      rwa [hstate, Function.update_of_ne hqx] at hq
  | exit r _ hrun _ _ _ _ hothers =>
    left
    by_cases hqr : q = r
    · rw [hqr, hrun]
      trivial
    · exact (hothers q hqr).live.mpr hq
  | reap _ x _ _ _ _ _ _ _ _ _ hstate => exact .inl (hupdate x _ hstate id)

end Xv6Container.Containers
