import Xv6Container.Containers.Parents
import Xv6Container.Kernel.Owners
import Xv6Container.Memory.Mapping

/-! The size of a process and its page table. In every run the pages below the size are mapped
and no other page of the user part, as long as no `growproc` with a negative argument takes the
size to 0: `deallocuvm` then returns 0, which `growproc` takes for an error. -/

namespace Xv6Container.Kernel

open Lib
open Containers (Sys Env Slot Page Creator Holders)
open Memory (Kmem PageDir Program KERNBASE Tame tame_panic Resized)

variable {α : Type} {s t : State} {y : Sys} {a : Act} {b : Containers.Act} {p q np x : Slot}
  {n : ℤ} {sz : ℕ}

/-- No `growproc` gives up the whole of an address space. -/
def GrowsAbove (s : State) : Act → Prop
  | .growproc p n => n < 0 → Memory.addSize (s.sys.core p).sz n ≠ 0
  | _ => True

instance (s : State) (a : Act) : Decidable (GrowsAbove s a) := by
  cases a with
  | growproc p n => exact inferInstanceAs (Decidable (_ → _))
  | _ => exact .isTrue trivial

/-- The pages below a size are mapped in a slot's address space, and no others. -/
def State.Mapped (s : State) (p : Slot) (sz : ℕ) : Prop := ∃ d, s.pgdir p = some d ∧ d.Maps sz

/-- Every process has the pages of its size, and so has a slot that `fork` or `joinContainer` is
filling. -/
structure Sized (s : State) : Prop where
  holders : Holders s.sys
  mapped : ∀ p, (s.sys.state p).created → s.Mapped p (s.sys.core p).sz
  small : ∀ p, (s.sys.state p).created → (s.sys.core p).sz < KERNBASE
  filling : ∀ q k np, s.sys.pc q = .list k np ∨ s.sys.pc q = .fields k np →
    s.Mapped np (s.sys.core q).sz
  named : ∀ q k np, s.sys.stage q = .named k np →
    s.Mapped np (s.sys.core np).sz ∧ (s.sys.core np).sz < KERNBASE

theorem State.Mapped.congr (h : s.Mapped p sz) (hdir : t.pgdir p = s.pgdir p) : t.Mapped p sz := by
  obtain ⟨d, hd, hmaps⟩ := h
  exact ⟨d, hdir.trans hd, hmaps⟩

/-! ### Steps of the tables -/

/-- The size of a slot is written with its name. -/
theorem sz_of_step (h : Containers.step s.sys b = .ok y) (x : Slot) :
    (y.core x).sz = (s.sys.core x).sz ∨
      ∃ p k e, b = .step p e ∧ s.sys.pc p = .fields k x ∧ (y.core x).sz = (s.sys.core p).sz := by
  have hupdate : ∀ (z : Slot) (v : Containers.Core), y.core = Function.update s.sys.core z v →
      v.sz = (s.sys.core z).sz → (y.core x).sz = (s.sys.core x).sz :=
    fun z v hcore hv => column_same Containers.Core.sz hcore hv x
  cases Containers.step_move h with
  | same hcore _ | reserve _ _ _ _ _ _ hcore _ => exact .inl (by rw [hcore])
  | kill p z pid _ _ hcore _ => exact .inl (hupdate z _ hcore rfl)
  | sleep p chan _ _ hcore _ => exact .inl (hupdate p _ hcore rfl)
  | kstack p np k e page _ _ hcore _ _ => exact .inl (hupdate np _ hcore rfl)
  | abandon p np k e _ _ _ hcore _ _ => exact .inl (hupdate np _ hcore rfl)
  | fields p np k e hact hpc hcore _ =>
    by_cases hx : x = np
    · subst hx
      refine .inr ⟨p, k, e, hact, hpc, ?_⟩
      rw [hcore, Function.update_self]
    · exact .inl (by rw [hcore, Function.update_of_ne hx])
  | exit p e c _ _ hcore _ =>
    refine .inl ?_
    rw [hcore]
    split_ifs
    · rfl
    · rfl
  | reap p z e _ _ _ hcore _ => exact .inl (hupdate z _ hcore rfl)

theorem sz_of_fields {k : Creator} {e : Env} (hpc : s.sys.pc p = .fields k np)
    (h : Containers.step s.sys (.step p e) = .ok y) : (y.core np).sz = (s.sys.core p).sz := by
  rw [Containers.fields_step hpc h]
  show ((s.sys.t.copyFields p np _).proc np).sz = _
  rw [Containers.Tables.copyFields, Containers.Tables.setProc_proc, if_pos rfl]
  rfl

/-- What a step of the tables asks of the address spaces. -/
structure Copies (s : State) (b : Containers.Act) (t : State) : Prop where
  same : ∀ x, t.sys.state x ≠ .unused → (∀ p k e, b = .step p e → s.sys.pc p ≠ .copy k x) →
    t.pgdir x = s.pgdir x
  copied : ∀ p k np e, b = .step p e → s.sys.pc p = .copy k np → t.sys.pc p = .list k np →
    t.Mapped np (s.sys.core p).sz

namespace Sized

theorem not_held (h : Sized s) (hx : (s.sys.state x).created) :
    (s.sys.stage q).held ≠ some x := by
  intro hq
  rw [h.holders.embryo q x hq] at hx
  exact hx

/-- A process that exists keeps its size and its address space. -/
theorem of_created (h : Sized s) (hstep : Containers.step s.sys b = .ok t.sys)
    (hdir : Copies s b t) (hx : (s.sys.state x).created) (hx' : t.sys.state x ≠ .unused) :
    (t.sys.core x).sz = (s.sys.core x).sz ∧ t.pgdir x = s.pgdir x := by
  constructor
  · obtain hsz | ⟨p, k, e, -, hpc, -⟩ := sz_of_step hstep x
    · exact hsz
    · exact absurd (by rw [Sys.stage, hpc]; rfl) (h.not_held hx)
  · refine hdir.same x hx' fun p k e _ hpc => ?_
    exact absurd (by rw [Sys.stage, hpc]; rfl) (h.not_held hx)

/-- So does a slot that is being filled, but for the sections that write it. -/
theorem of_held (h : Sized s) (hstep : Containers.step s.sys b = .ok t.sys) (hdir : Copies s b t)
    (hq : (s.sys.stage q).held = some np) (hcopy : ∀ k, s.sys.pc q ≠ .copy k np)
    (hnp : t.sys.state np ≠ .unused) :
    t.pgdir np = s.pgdir np ∧
      ((∀ k, s.sys.pc q ≠ .fields k np) → (t.sys.core np).sz = (s.sys.core np).sz) := by
  constructor
  · refine hdir.same np hnp fun p k e _ hpc => ?_
    have hp : p = q := h.holders.unique p q np (by rw [Sys.stage, hpc]; rfl) hq
    exact hcopy k (hp ▸ hpc)
  · intro hfields
    obtain hsz | ⟨p, k, e, -, hpc, -⟩ := sz_of_step hstep np
    · exact hsz
    · have hp : p = q := h.holders.unique p q np (by rw [Sys.stage, hpc]; rfl) hq
      exact absurd (hp ▸ hpc) (hfields k)

theorem step_sys (h : Sized s) (hstep : Containers.step s.sys b = .ok t.sys)
    (hdir : Copies s b t) : Sized t := by
  have he := Containers.step_effect hstep
  have hh := h.holders.step he
  -- a process that exists in both states
  have hkeep : ∀ x, (s.sys.state x).created → (t.sys.state x).created →
      t.Mapped x (t.sys.core x).sz ∧ (t.sys.core x).sz < KERNBASE := by
    intro x hx hx'
    obtain ⟨hsz, hpg⟩ := h.of_created hstep hdir hx fun hu => by rw [hu] at hx'; exact hx'
    rw [hsz]
    exact ⟨(h.mapped x hx).congr hpg, h.small x hx⟩
  -- a slot that stays with the process that has named it
  have hnamed : ∀ q k x, s.sys.stage q = .named k x → t.sys.state x ≠ .unused →
      t.Mapped x (t.sys.core x).sz ∧ (t.sys.core x).sz < KERNBASE := by
    intro q k x hst hx
    obtain ⟨hmaps, hlt⟩ := h.named q k x hst
    obtain ⟨hpg, hsz⟩ := h.of_held hstep hdir (by rw [hst]; rfl)
      (fun k' hk => by rw [Sys.stage, hk] at hst; cases hst) hx
    rw [hsz fun k' hk => by rw [Sys.stage, hk] at hst; cases hst]
    exact ⟨hmaps.congr hpg, hlt⟩
  have hcreated : ∀ x, (t.sys.state x).created →
      t.Mapped x (t.sys.core x).sz ∧ (t.sys.core x).sz < KERNBASE := by
    intro x hx
    obtain hx' | ⟨q, k, hst⟩ := Containers.created_of_step he hx
    · exact hkeep x hx' hx
    · exact hnamed q k x hst fun hu => by rw [hu] at hx; exact hx
  -- the creator of a slot is a process
  have hcreator : ∀ q np, (s.sys.stage q).held = some np → (t.sys.stage q).held = some np →
      (t.sys.core q).sz = (s.sys.core q).sz ∧ (s.sys.core q).sz < KERNBASE := by
    intro q np hq hq'
    have hlive : ∀ {z : Sys}, Holders z → (z.stage q).held = some np → (z.state q).created := by
      intro z hz hheld
      refine Containers.ProcState.live.created (hz.live q fun hidle => ?_)
      rw [hidle] at hheld
      cases hheld
    have hs := hlive h.holders hq
    have ht := hlive hh hq'
    exact ⟨(h.of_created hstep hdir hs fun hu => by rw [hu] at ht; exact ht).1, h.small q hs⟩
  refine ⟨hh, fun x hx => (hcreated x hx).1, fun x hx => (hcreated x hx).2, ?_, ?_⟩
  · intro q k np hpc
    have hheld' : (t.sys.stage q).held = some np := by
      obtain hpc | hpc := hpc <;> rw [Sys.stage, hpc] <;> rfl
    have hnp : t.sys.state np ≠ .unused := by rw [hh.embryo q np hheld']; rintro ⟨⟩
    have hold : s.sys.pc q = .list k np ∨ s.sys.pc q = .fields k np → t.Mapped np (t.sys.core q).sz := by
      intro hpc
      have hheld : (s.sys.stage q).held = some np := by
        obtain hpc | hpc := hpc <;> rw [Sys.stage, hpc] <;> rfl
      rw [(hcreator q np hheld hheld').1]
      refine (h.filling q k np hpc).congr (h.of_held hstep hdir hheld (fun k' hk => ?_) hnp).1
      rw [hk] at hpc
      obtain hpc | hpc := hpc <;> cases hpc
    by_cases hsame : t.sys.pc q = s.sys.pc q
    · rw [hsame] at hpc
      exact hold hpc
    · have hbefore := Containers.step_before hstep hsame
      obtain hpc | hpc := hpc
      · rw [hpc] at hbefore
        have hcopy : s.sys.pc q = .copy k np := hbefore
        obtain ⟨e, hact⟩ := step_of_busy hstep hsame (by rw [hcopy]; rintro ⟨⟩)
        rw [(hcreator q np (by rw [Sys.stage, hcopy]; rfl) hheld').1]
        exact hdir.copied q k np e hact hcopy hpc
      · rw [hpc] at hbefore
        exact hold (.inl hbefore)
  · intro q k np hst
    have hheld' : (t.sys.stage q).held = some np := by rw [hst]; rfl
    have hnp : t.sys.state np ≠ .unused := by rw [hh.embryo q np hheld']; rintro ⟨⟩
    by_cases hsame : t.sys.stage q = s.sys.stage q
    · exact hnamed q k np (hsame ▸ hst) hnp
    · have hpc := Containers.fields_of_named he hst hsame
      obtain ⟨e, rfl⟩ := Containers.step_of_stage hstep hsame
      have hheld : (s.sys.stage q).held = some np := by rw [Sys.stage, hpc]; rfl
      have hpg := (h.of_held hstep hdir hheld (fun k' hk => by rw [hpc] at hk; cases hk) hnp).1
      rw [sz_of_fields hpc hstep]
      exact ⟨(h.filling q k np (.inr hpc)).congr hpg, (hcreator q np hheld hheld').2⟩

/-- A process that makes no call of the tables gets a new size and new pages. -/
theorem own (h : Sized s) (huser : s.inUser p) (hpc : t.sys.pc = s.sys.pc)
    (hstate : t.sys.state = s.sys.state)
    (hothers : ∀ x, x ≠ p → (t.sys.core x).sz = (s.sys.core x).sz ∧ t.pgdir x = s.pgdir x)
    (hp : t.Mapped p (t.sys.core p).sz) (hlt : (t.sys.core p).sz < KERNBASE) : Sized t := by
  have hstage : t.sys.stage = s.sys.stage := by
    funext q
    rw [Sys.stage, hpc, Sys.stage]
  have hcreated : (s.sys.state p).created := by
    have hrun : s.sys.state p = .running := huser.1
    rw [hrun]
    trivial
  have hheld : ∀ q np, (s.sys.stage q).held = some np → np ≠ p := by
    rintro q _ hq rfl
    exact h.not_held hcreated hq
  constructor
  case holders => exact h.holders.congr hpc hstate
  case mapped =>
    intro x hx
    by_cases hxp : x = p
    · rw [hxp]
      exact hp
    · rw [hstate] at hx
      rw [(hothers x hxp).1]
      exact (h.mapped x hx).congr (hothers x hxp).2
  case small =>
    intro x hx
    by_cases hxp : x = p
    · rw [hxp]
      exact hlt
    · rw [hstate] at hx
      rw [(hothers x hxp).1]
      exact h.small x hx
  case filling =>
    intro q k np hq
    rw [hpc] at hq
    have hqp : q ≠ p := by
      rintro rfl
      rw [huser.2] at hq
      obtain hq | hq := hq <;> cases hq
    have hnp := hheld q np (by obtain hq | hq := hq <;> rw [Sys.stage, hq] <;> rfl)
    rw [(hothers q hqp).1]
    exact (h.filling q k np hq).congr (hothers np hnp).2
  case named =>
    intro q k np hq
    rw [hstage] at hq
    have hnp := hheld q np (by rw [hq]; rfl)
    rw [(hothers np hnp).1]
    exact ⟨(h.named q k np hq).1.congr (hothers np hnp).2, (h.named q k np hq).2⟩

theorem of_user {d : PageDir} (h : Sized s) (huser : s.inUser p) (hdir : s.pgdir p = some d) :
    d.Maps (s.sys.core p).sz ∧ (s.sys.core p).sz < KERNBASE := by
  have hp : (s.sys.state p).created := by
    have hrun : s.sys.state p = .running := huser.1
    rw [hrun]
    trivial
  obtain ⟨d₀, hd₀, hmaps⟩ := h.mapped p hp
  cases hdir.symm.trans hd₀
  exact ⟨hmaps, h.small p hp⟩

theorem resized {o : Option ℕ} (h : Sized s) (huser : s.inUser p) (hsys : t.sys = resize s.sys p o)
    (hdir : ∀ x, x ≠ p → t.pgdir x = s.pgdir x) (hp : t.Mapped p (o.getD (s.sys.core p).sz))
    (hlt : o.getD (s.sys.core p).sz < KERNBASE) : Sized t := by
  have hcore : t.sys.core = o.elim s.sys.core fun sz =>
      Function.update s.sys.core p { s.sys.core p with sz := sz } := by
    rw [hsys]
    exact (resize_columns s.sys p o).1
  have hself : (t.sys.core p).sz = o.getD (s.sys.core p).sz := by
    rw [hcore]
    cases o with
    | none => rfl
    | some sz =>
      show (Function.update s.sys.core p _ p).sz = sz
      rw [Function.update_self]
  have hpc : t.sys.pc = s.sys.pc := by rw [hsys, resize_pc]
  have hstate : t.sys.state = s.sys.state := by rw [hsys, resize_state]
  refine h.own huser hpc hstate (fun x hx => ⟨?_, hdir x hx⟩) (hself ▸ hp) (hself ▸ hlt)
  rw [hcore]
  cases o with
  | none => rfl
  | some sz =>
    show (Function.update s.sys.core p _ x).sz = _
    rw [Function.update_of_ne hx]

end Sized

/-! ### One step -/

/-- A section at another place than the copy. -/
theorem Copies.of_other {e : Env} {c : Containers.Pc} (hdir : t.pgdir = s.pgdir)
    (hpc : s.sys.pc p = c) (hc : ∀ k np, c ≠ .copy k np) : Copies s (.step p e) t where
  same x _ _ := by rw [hdir]
  copied q k np e' hact hcopy _ := by
    cases hact
    exact absurd (hpc.symm.trans hcopy) (hc k np)

/-- The section that copies an address space writes that of the slot it fills. -/
theorem Copies.of_copy {k : Creator} {e : Env} {o : Option PageDir} (hpc : s.sys.pc p = .copy k np)
    (hdir : t.pgdir = Function.update s.pgdir np o)
    (ho : t.sys.pc p = .list k np → ∃ d, o = some d ∧ d.Maps (s.sys.core p).sz) :
    Copies s (.step p e) t where
  same x _ hx := by
    rw [hdir, Function.update_of_ne]
    rintro rfl
    exact hx p k e rfl hpc
  copied q k' x e' hact hcopy hlist := by
    cases hact
    cases hpc.symm.trans hcopy
    obtain ⟨d, rfl, hmaps⟩ := ho hlist
    exact ⟨d, by rw [hdir, Function.update_self], hmaps⟩

theorem Sized.step (h : Sized s) (hg : GrowsAbove s a) (ht : step s a = .ok t) : Sized t := by
  cases step_move ht with
  | calm b hstep _ hplain heq =>
    refine h.step_sys hstep ⟨fun x _ _ => by rw [heq], fun p k np e hact hcopy _ => ?_⟩
    have := hplain p e hact
    rw [State.Plain, hcopy] at this
    exact this.elim
  | kstack p np k n o m _ hpc _ hstep heq =>
    exact h.step_sys hstep (.of_other (by rw [heq]; rfl) hpc (by rintro _ _ ⟨⟩))
  | copied p np k n d d' m _ hpc hdir hcopy hstep heq =>
    refine h.step_sys hstep (.of_copy hpc (by rw [heq]) fun _ => ⟨d', rfl, ?_⟩)
    have hp : (s.sys.state p).created := by
      rw [(Containers.running_of_step hstep).1]
      trivial
    obtain ⟨d₀, hd₀, hmaps⟩ := h.mapped p hp
    cases hdir.symm.trans hd₀
    exact (Memory.copyuvm_mapped hmaps (h.small p hp)).1 _ _ hcopy d' rfl
  | notCopied p np k n d m m' _ hpc _ _ _ hstep heq =>
    refine h.step_sys hstep (.of_copy hpc (by rw [heq]) fun hlist => ?_)
    rw [Containers.notCopied_step hpc rfl hstep] at hlist
    have huser : (s.sys.back p (-1) (s.sys.t.abandon np)).pc p = .user := Function.update_self ..
    rw [huser] at hlist
    cases hlist
  | full p np k n m _ hpc _ _ hstep heq =>
    exact h.step_sys hstep (.of_other (by rw [heq]; rfl) hpc (by rintro _ _ ⟨⟩))
  | reaped p q n d m m' _ hpc hscan _ _ _ hstep heq =>
    refine h.step_sys hstep ⟨fun x hx _ => ?_, fun p' k np e hact hcopy _ => ?_⟩
    · rw [heq]
      refine Function.update_of_ne ?_ ..
      rintro rfl
      refine hx ?_
      rw [Containers.reap_step hpc hscan hstep]
      show ((s.sys.t.reap x).proc x).state = .unused
      rw [Containers.Tables.reap, Containers.Tables.setProc_proc, if_pos rfl]
    · cases hact
      cases hpc.symm.trans hcopy
  | reserve p n pages m _ hpc _ hstep heq =>
    exact h.step_sys hstep (.of_other (by rw [heq]; rfl) hpc (by rintro _ _ ⟨⟩))
  | growproc p n d d' o m hact huser hdir hgrow heq =>
    subst hact
    obtain ⟨hmaps, hlt⟩ := h.of_user huser hdir
    obtain ⟨hnone, hsome⟩ := (Memory.growproc_mapped hmaps hlt hg).1 _ _ hgrow
    have hpg : ∀ x, x ≠ p → t.pgdir x = s.pgdir x := by
      intro x hx
      rw [heq]
      exact Function.update_of_ne hx ..
    refine h.resized huser (by rw [heq]) hpg ⟨d', by rw [heq]; exact Function.update_self .., ?_⟩ ?_
    · cases o with
      | none => exact hmaps.congr (hnone rfl)
      | some sz => exact (hsome sz rfl).1
    · cases o with
      | none => exact hlt
      | some sz => exact (hsome sz rfl).2
  | exec p prog d o m hact huser hdir hexec heq =>
    obtain ⟨hmaps, hlt⟩ := h.of_user huser hdir
    have hnew := Memory.exec_mapped.1 _ _ hexec
    cases o with
    | none =>
      refine h.resized huser (o := none) (by rw [heq]; rfl) (fun x _ => by rw [heq]; rfl) ?_ hlt
      exact ⟨d, by rw [heq]; exact hdir, hmaps⟩
    | some x =>
      refine h.resized huser (o := some x.2) (by rw [heq]; rfl) (fun y hy => ?_) ?_ (hnew x rfl).2
      · rw [heq]
        exact Function.update_of_ne hy ..
      · exact ⟨x.1, by rw [heq]; exact Function.update_self .., (hnew x rfl).1⟩
  | files c _ _ _ heq =>
    rw [heq]
    exact ⟨h.holders, h.mapped, h.small, h.filling, h.named⟩

/-! ### Stops -/

/-- No panic of `copyuvm`. -/
def Harmless (r : Stop) : Prop := ∀ x, r = .memory x → Tame x

theorem onMemory_harmless {x : Memory.Run α} {Q : α → Kmem → Prop} (h : Ends Q Tame (x s.kmem)) :
    Ends (fun _ _ => True) Harmless (onMemory x s) := by
  unfold onMemory
  cases hx : x s.kmem with
  | ok r m => exact ends_ok.2 trivial
  | error r m =>
    refine ends_error.2 ?_
    rintro _ ⟨⟩
    exact h.2 _ _ hx

theorem advance_harmless {e : Env} : Ends (fun _ _ => True) Harmless (advance p e s) := by
  simp only [advance, run_get_bind]
  cases Containers.step s.sys (.step p e) with
  | error r => exact ends_error.2 (by rintro _ ⟨⟩)
  | ok sys => exact ends_ok.2 trivial

theorem freeKstack_harmless : Ends (fun _ _ => True) Harmless (freeKstack p s) :=
  onMemory_harmless Memory.kfree_tame

theorem freePgdir_harmless : Ends (fun _ _ => True) Harmless (freePgdir p s) := by
  simp only [freePgdir, run_get_bind]
  cases s.pgdir p with
  | none =>
    refine ends_error.2 ?_
    rintro _ ⟨⟩
    exact tame_panic (by decide) (by decide)
  | some d => exact (onMemory_harmless Memory.freevm_tame).bind fun _ _ _ => ends_ok.2 trivial

theorem kallocs_tame {k : ℕ} {m : Kmem} : Ends (fun _ _ => True) Tame (kallocs k m) := by
  induction k generalizing m with
  | zero => exact ends_ok.2 trivial
  | succ k ih =>
    exact Memory.kalloc_tame.bind fun _ _ _ => ih.bind fun _ _ _ => ends_ok.2 trivial

theorem section_harmless (h : Sized s) (hp : (s.sys.state p).created) :
    Ends (fun _ _ => True) Harmless (sectionStep p n s) := by
  simp only [sectionStep, run_get_bind]
  cases s.sys.pc p with
  | kstack k np =>
    dsimp only
    split_ifs
    · exact (onMemory_harmless Memory.kalloc_tame).bind fun _ _ _ => advance_harmless
    · exact advance_harmless
  | copy k np =>
    dsimp only
    cases hdir : s.pgdir p with
    | none => exact ends_error.2 (by rintro _ ⟨⟩)
    | some d =>
      obtain ⟨d₀, hd₀, hmaps⟩ := h.mapped p hp
      cases hdir.symm.trans hd₀
      refine (onMemory_harmless (Memory.copyuvm_mapped hmaps (h.small p hp))).bind fun o _ _ => ?_
      cases o with
      | some d' => exact advance_harmless
      | none => exact freeKstack_harmless.bind fun _ _ _ => advance_harmless
  | list k np =>
    dsimp only
    cases k.insert s.sys.t p np with
    | error r => exact advance_harmless
    | ok x =>
      obtain ⟨listed, z⟩ := x
      cases listed with
      | true => exact advance_harmless
      | false => exact freeKstack_harmless.bind fun _ _ _ => advance_harmless
  | waiting =>
    dsimp only
    cases s.sys.t.waitScan p with
    | noKids | sleep => exact advance_harmless
    | reaped q =>
      refine freeKstack_harmless.bind fun _ _ _ => ?_
      exact freePgdir_harmless.bind fun _ _ _ => advance_harmless
  | initContainer =>
    exact (onMemory_harmless kallocs_tame).bind fun _ _ _ => advance_harmless
  | _ => exact advance_harmless

theorem finish_harmless {r : EStateM.Result Stop State α} {e : Stop}
    (h : Ends (fun _ _ => True) Harmless r) (hr : finish r = .error e) : Harmless e := by
  cases r with
  | ok b u => cases hr
  | error r u =>
    cases hr
    exact h.2 _ _ rfl

theorem growproc_harmless (h : Sized s) (huser : s.inUser p) :
    Ends (fun _ _ => True) Harmless (growproc p n s) := by
  simp only [growproc, run_get_bind]
  cases hdir : s.pgdir p with
  | none => exact ends_error.2 (by rintro _ ⟨⟩)
  | some d =>
    obtain ⟨hmaps, hlt⟩ := h.of_user huser hdir
    refine (onMemory_harmless (Memory.growproc_tame hmaps hlt)).bind fun x _ _ => ?_
    obtain ⟨d', o⟩ := x
    cases o with
    | none => exact ends_ok.2 trivial
    | some sz => exact ends_ok.2 trivial

theorem exec_harmless {prog : Program} : Ends (fun _ _ => True) Harmless (exec p prog s) := by
  simp only [exec, run_get_bind]
  cases s.pgdir p with
  | none => exact ends_error.2 (by rintro _ ⟨⟩)
  | some d =>
    refine (onMemory_harmless Memory.exec_mapped).bind fun o _ _ => ?_
    cases o with
    | none => exact ends_ok.2 trivial
    | some x => exact ends_ok.2 trivial

theorem step_harmless {r : Stop} (h : Sized s) (ht : step s a = .error r) : Harmless r := by
  cases a with
  | step p n =>
    unfold step at ht
    dsimp only at ht
    split_ifs at ht with hrun
    · refine finish_harmless (section_harmless h ?_) ht
      rw [Sys.state, hrun]
      trivial
    · cases ht
      rintro _ ⟨⟩
  | growproc p n =>
    unfold step at ht
    dsimp only at ht
    split_ifs at ht with huser
    · exact finish_harmless (growproc_harmless h huser) ht
    · cases ht
      rintro _ ⟨⟩
  | exec p prog =>
    unfold step at ht
    dsimp only at ht
    split_ifs at ht
    · exact finish_harmless exec_harmless ht
    · cases ht
      rintro _ ⟨⟩
  | sys b =>
    cases b with
    | step p e =>
      cases ht
      rintro _ ⟨⟩
    | _ =>
      unfold step at ht
      dsimp only at ht
      split at ht
      · cases ht
        rintro _ ⟨⟩
      · cases ht
  | files c =>
    cases c with
    | memory l =>
      cases ht
      rintro _ ⟨⟩
    | _ =>
      unfold step at ht
      dsimp only at ht
      split at ht
      · cases ht
        rintro _ ⟨⟩
      · cases ht

/-! ### Runs -/

theorem inituvm_mapped {d : PageDir} {m : Kmem} (h : d.user = fun _ => none) :
    Ends (fun d' _ => d'.Maps 4096) Tame (inituvm d m) := by
  refine Memory.kalloc_tame.bind fun o m' _ => ?_
  cases o with
  | none => exact ends_error.2 Memory.tame_disabled
  | some mem =>
    refine (Memory.mappages_mapped (show 0 < KERNBASE by decide)).bind fun x _ hx => ?_
    obtain ⟨d', ok⟩ := x
    cases ok with
    | false => exact ends_error.2 Memory.tame_disabled
    | true =>
      refine ends_ok.2 fun b hb => ?_
      have hup : Memory.PGROUNDUP 4096 = 4096 := rfl
      have hb' := hx b hb
      dsimp only at hb'
      rw [hb', Memory.PageDir.mapped_of_empty h, hup]
      simp only [true_and, Memory.PGSIZE, Nat.zero_div]
      split_ifs with h0
      · simp only [Option.isSome_some, true_iff]
        omega
      · simp only [Option.isSome_none, Bool.false_eq_true, false_iff]
        omega

theorem userinit_mapped {m : Kmem} : Ends (fun x _ => x.2.Maps 4096) Tame (userinit m) := by
  refine Memory.kalloc_tame.bind fun o m' _ => ?_
  cases o with
  | none => exact ends_error.2 Memory.tame_disabled
  | some kstack =>
    refine Memory.setupkvm_mapped.bind fun o m' ho => ?_
    cases o with
    | none => exact ends_error.2 (tame_panic (by decide) (by decide))
    | some d => exact (inituvm_mapped (ho d rfl)).bind fun d' _ hd => ends_ok.2 hd

theorem Booted.sized (h : Booted s) : Sized s := by
  obtain ⟨kmem, kmem', kstack, d, node, t, -, hinit, -, ht, rfl⟩ := h
  have hboot : Containers.Booted (Containers.boot t) := ⟨kstack, t, ht, rfl⟩
  have hcore := @boot_core d kmem' node kstack t ht
  obtain ⟨-, -, hstate, -⟩ := hboot.pid
  have hzero : ∀ p, ((boot d kmem' node t).sys.state p).created → p = 0 := by
    intro p hp
    by_contra hne
    have hp' : ((Containers.boot t).state p).created := hp
    rw [hstate, Function.update_of_ne hne] at hp'
    exact hp'
  have hstage : ∀ q, (boot d kmem' node t).sys.stage q = .idle := fun q => rfl
  constructor
  case holders => exact hboot.holders
  case mapped =>
    intro p hp
    rw [hzero p hp, hcore, Function.update_self]
    exact ⟨d, rfl, userinit_mapped.1 _ _ hinit⟩
  case small =>
    intro p hp
    rw [hzero p hp, hcore, Function.update_self]
    show 4096 < KERNBASE
    decide
  case filling =>
    intro q k np hq
    obtain hq | hq := hq <;> cases hq
  case named =>
    intro q k np hq
    cases hq

/-- The same user pages in every address space. -/
def SameMaps (s t : State) : Prop :=
  ∀ q b, b < KERNBASE → (t.pgdir q).bind (Memory.PageDir.mapped · b) =
    (s.pgdir q).bind (Memory.PageDir.mapped · b)

/-- What the sizes promise in a state from which `a` is tried. -/
structure SizesOk (s : State) (a : Act) : Prop where
  mapped : ∀ p, (s.sys.state p).created → s.Mapped p (s.sys.core p).sz
  small : ∀ p, (s.sys.state p).created → (s.sys.core p).sz < KERNBASE
  failed : ∀ p n t, a = .growproc p n → s.inUser p → growproc p n s = .ok (-1) t →
    t.sys = s.sys ∧ SameMaps s t
  copyuvm : ∀ r, step s a = .error (.memory r) → r ≠ .panic "copyuvm: pte should exist" ∧
    r ≠ .panic "copyuvm: page not present"

theorem Sized.failed (h : Sized s) (hg : GrowsAbove s (.growproc p n)) (huser : s.inUser p)
    (hgrow : growproc p n s = .ok (-1) t) : t.sys = s.sys ∧ SameMaps s t := by
  simp only [growproc, run_get_bind] at hgrow
  cases hdir : s.pgdir p with
  | none =>
    rw [hdir] at hgrow
    cases hgrow
  | some d =>
    rw [hdir] at hgrow
    obtain ⟨⟨d', o⟩, u, hu, hgrow⟩ := bind_eq_ok hgrow
    obtain ⟨m, hm, rfl⟩ := onMemory_eq_ok hu
    obtain ⟨hmaps, hlt⟩ := h.of_user huser hdir
    obtain ⟨hnone, -⟩ := (Memory.growproc_mapped hmaps hlt hg).1 _ _ hm
    cases o with
    | some sz => cases hgrow
    | none =>
      cases hgrow
      refine ⟨rfl, fun q b hb => ?_⟩
      show (Function.update s.pgdir p (some d') q).bind _ = _
      rw [Function.update_apply]
      split_ifs with hq
      · rw [hq, hdir]
        exact hnone rfl b hb
      · rfl

/-- As long as no `growproc` gives up a whole address space, every process has the pages of its
size, a `growproc` that fails changes nothing and `copyuvm` does not panic. -/
theorem sizesOk_of_growsAbove (hs : Reach step GrowsAbove Booted s) (hg : GrowsAbove s a) :
    SizesOk s a := by
  have h : Sized s := hs.invariant (fun _ => Booted.sized) fun _ _ _ h hg ht => h.step hg ht
  refine ⟨h.mapped, h.small, ?_, fun r hr => step_harmless h hr r rfl⟩
  rintro p n t rfl huser hgrow
  exact h.failed hg huser hgrow

/-! ### A run -/

/-- The first process takes a page, gives it back and takes it again, and then calls `fork`. -/
theorem sizesOk_forked : ∃ s : State, SizesOk s (.growproc 0 (-4096)) ∧
    (s.sys.core 0).sz = 8192 ∧ s.sys.state 1 = .runnable ∧ (s.sys.core 1).sz = 8192 := by
  have hboot : Reach step GrowsAbove Booted firstBoot := .start booted_firstBoot
  obtain ⟨s, hs, ht⟩ := hboot.of_endsIn
    (fun s => decide ((s.sys.core 0).sz = 8192 ∧ s.sys.state 1 = .runnable ∧
      (s.sys.core 1).sz = 8192 ∧ GrowsAbove s (.growproc 0 (-4096))))
    ((Containers.turns 2).map lift ++ [.growproc 0 4096, .growproc 0 (-4096), .growproc 0 4096] ++
      (.call 0 .fork :: Containers.sections 0 6).map lift) (by decide +kernel)
  obtain ⟨h₀, hstate, h₁, hg⟩ := of_decide_eq_true ht
  exact ⟨s, sizesOk_of_growsAbove hs hg, h₀, hstate, h₁⟩

/-- The first process gives up its only page: `growproc` returns -1, the page is gone and the
size stays. -/
theorem grow_to_zero : ∃ s t : State, Reach step always Booted s ∧ Reach step always Booted t ∧
    s.inUser 0 ∧ growproc 0 (-4096) s = .ok (-1) t ∧ ¬ SizesOk s (.growproc 0 (-4096)) ∧
    ∀ a, ¬ SizesOk t a := by
  have hboot : Reach step always Booted firstBoot := .start booted_firstBoot
  obtain ⟨s, hs, ht⟩ := hboot.of_endsIn
    (fun s => decide (s.inUser 0) && match growproc 0 (-4096) s with
      | .ok r t => decide (r = -1 ∧ t.sys.state 0 = .running ∧ (t.sys.core 0).sz = 4096) &&
        ((t.pgdir 0).bind (Memory.PageDir.mapped · 0)).isNone &&
        ((s.pgdir 0).bind (Memory.PageDir.mapped · 0)).isSome
      | .error _ _ => false)
    ((Containers.turns 2).map lift) (by decide +kernel)
  simp only [Bool.and_eq_true, decide_eq_true_eq] at ht
  obtain ⟨huser, ht⟩ := ht
  cases hgrow : growproc 0 (-4096) s with
  | error r t =>
    rw [hgrow] at ht
    cases ht
  | ok r t =>
    rw [hgrow] at ht
    simp only [Bool.and_eq_true, decide_eq_true_eq] at ht
    obtain ⟨⟨⟨rfl, hrun, hsz⟩, hgone⟩, hthere⟩ := ht
    have hstep : step s (.growproc 0 (-4096)) = .ok t := by
      unfold step
      dsimp only
      rw [if_pos huser, hgrow]
      rfl
    refine ⟨s, t, hs, .next hs trivial hstep, huser, hgrow, fun h => ?_, fun a h => ?_⟩
    · obtain ⟨-, hsame⟩ := h.failed 0 (-4096) t rfl huser hgrow
      rw [← hsame 0 0 (by decide), Option.isNone_iff_eq_none.1 hgone] at hthere
      cases hthere
    · obtain ⟨d, hd, hmaps⟩ := h.mapped 0 (by rw [hrun]; trivial)
      have hmapped : (d.mapped 0).isSome := by
        refine (hmaps 0 (by decide)).2 ?_
        rw [hsz]
        decide
      have hnone : d.mapped 0 = none := by
        rw [hd] at hgone
        exact Option.isNone_iff_eq_none.1 hgone
      rw [hnone] at hmapped
      cases hmapped

end Xv6Container.Kernel
