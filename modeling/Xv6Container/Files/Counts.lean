import Xv6Container.Files.Model
import Xv6Container.Names.Descriptors

/-! Open files and pipes while the calls use them. `Filed K s` says that a file has the references
of its descriptors and those `K` that a call has in hand, that a file without references holds
nothing, that the open ends of pipes are held by one file each, and that a page is a pipe as long
as one of its ends is open. -/

namespace Xv6Container.Files

open Lib Names
open Fs hiding Stop

variable {α : Type} {K : FileId → ℤ} {s t u : State} {p q : Slot} {fd : Fd} {f g : FileId}
  {pg : Page} {w : Bool}

namespace State

/-- Whether an end of a pipe is open. -/
def isOpen (s : State) (pg : Page) (w : Bool) : Bool :=
  (s.pipes pg).elim false fun q => q.isOpen w

/-- The end of a pipe that an `FD_PIPE` file stands for. -/
def endOf (s : State) (f : FileId) : Option (Page × Bool) :=
  (s.pipe f).map fun pg => (pg, (s.fs.file f).writable)

end State

structure Filed (K : FileId → ℤ) (s : State) : Prop where
  refs : Refs K s.fs
  object : ∀ f, (s.fs.file f).ref = 0 ↔ (s.fs.file f).ip = none ∧ s.pipe f = none
  single : ∀ f, (s.fs.file f).ip = none ∨ s.pipe f = none
  ends : ∀ pg w, tally s.endOf (pg, w) = if s.isOpen pg w then 1 else 0
  live : ∀ pg q, s.pipes pg = some q → q.freed = false
  nodup : s.kmem.freelist.Nodup
  apart : ∀ pg ∈ s.kmem.freelist, s.pipes pg = none
  log : ∀ pg, s.log.count (.made pg) =
    s.log.count (.freed pg) + if (s.pipes pg).isSome then 1 else 0

/-- A file stands for what it stood for. -/
def Same (s t : State) (f : FileId) : Prop :=
  (t.fs.file f).ip = (s.fs.file f).ip ∧ t.pipe f = s.pipe f ∧
    (t.fs.file f).writable = (s.fs.file f).writable

/-- Files may have been closed. -/
def Shrinks (s t : State) : Prop :=
  ∀ f, (t.fs.file f).ref ≠ 0 → (s.fs.file f).ref ≠ 0 ∧ Same s t f

/-- Files may have been opened. -/
def Extends (s t : State) : Prop :=
  ∀ f, (s.fs.file f).ref ≠ 0 → (t.fs.file f).ref ≠ 0 ∧ Same s t f

theorem Same.trans (h : Same s t f) (h' : Same t u f) : Same s u f :=
  ⟨h'.1.trans h.1, h'.2.1.trans h.2.1, h'.2.2.trans h.2.2⟩

theorem Shrinks.refl (s : State) : Shrinks s s := fun _ hf => ⟨hf, rfl, rfl, rfl⟩

theorem Shrinks.trans (h : Shrinks s t) (h' : Shrinks t u) : Shrinks s u := by
  intro f hf
  obtain ⟨ht, htu⟩ := h' f hf
  obtain ⟨hs, hst⟩ := h f ht
  exact ⟨hs, hst.trans htu⟩

/-- No pipe is used after it has been given back. -/
def Legal (r : Stop) : Prop := ∀ pg, r ≠ .freed pg

/-! ### Programs of the layers below -/

theorem onFs_ends {x : Names.Run α} {Q : α → Names.State → Prop} {S : Fs.Stop → Prop}
    (h : Ends Q S (x s.fs)) :
    Ends (fun a t => ∃ fs, t = { s with fs := fs } ∧ Q a fs) Legal (onFs x s) := by
  unfold onFs
  cases hx : x s.fs with
  | ok a fs => exact ends_ok.2 ⟨fs, rfl, h.1 a fs hx⟩
  | error r fs => exact ends_error.2 nofun

theorem onKmem_ends {x : Memory.Run α} {Q : α → Kmem → Prop} {S : Containers.Stop → Prop}
    (h : Ends Q S (x s.kmem)) :
    Ends (fun a t => ∃ kmem, t = { s with kmem := kmem } ∧ Q a kmem) Legal (onKmem x s) := by
  unfold onKmem
  cases hx : x s.kmem with
  | ok a kmem => exact ends_ok.2 ⟨kmem, rfl, h.1 a kmem hx⟩
  | error r kmem => exact ends_error.2 nofun

theorem kalloc_freelist {m : Kmem} : Ends (fun o m' => o.elim (m' = m) fun pg =>
    m.freelist = pg :: m'.freelist) (fun _ => True) (Memory.kalloc m) := by
  simp only [Memory.kalloc, run_get_bind]
  cases hlist : m.freelist with
  | nil => exact ends_ok.2 rfl
  | cons pg rest => exact ends_ok.2 rfl

theorem kfree_freelist {m : Kmem} : Ends (fun _ m' => m'.freelist = pg :: m.freelist)
    (fun _ => True) (Memory.kfree pg m) := by
  simp only [Memory.kfree, run_get_bind]
  split_ifs
  · exact ends_error.2 trivial
  · exact ends_ok.2 rfl

/-- Only counts of files in use change. -/
theorem Filed.recount {K' : FileId → ℤ} {fs : Names.State} (h : Filed K s) (hr : Refs K' fs)
    (hc : Recounted s.fs fs) : Filed K' { s with fs := fs } := by
  have hend : State.endOf { s with fs := fs } = s.endOf := by
    funext f
    show (s.pipe f).map (fun pg => (pg, (fs.file f).writable)) = _
    rw [hc.writable]
    rfl
  refine ⟨hr, fun f => ?_, fun f => ?_, fun pg w => ?_, h.live, h.nodup, h.apart, h.log⟩
  · show (fs.file f).ref = 0 ↔ (fs.file f).ip = none ∧ _
    rw [hc.used, hc.ip]
    exact h.object f
  · show (fs.file f).ip = none ∨ _
    rw [hc.ip]
    exact h.single f
  · rw [hend]
    exact h.ends pg w

/-- Neither files nor descriptors change. -/
theorem Filed.frame {fs : Names.State} (h : Filed K s) (hfile : fs.file = s.fs.file)
    (hproc : ∀ p, (fs.proc p).ofile = (s.fs.proc p).ofile) : Filed K { s with fs := fs } := by
  refine h.recount (fun f => ?_) (.of_file hfile)
  rw [hfile, slots_congr hproc]
  exact h.refs f

/-! ### `fileclose` -/

/-- The open end of a file in use. -/
theorem Filed.open_end (h : Filed K s) (hf : s.endOf f = some (pg, w)) :
    s.isOpen pg w = true ∧ ∃ q, s.pipes pg = some q := by
  have hpos := tally_pos hf
  rw [h.ends] at hpos
  have hopen : s.isOpen pg w = true := by
    by_contra hne
    rw [if_neg hne] at hpos
    exact absurd hpos (lt_irrefl 0)
  refine ⟨hopen, ?_⟩
  unfold State.isOpen at hopen
  cases hq : s.pipes pg with
  | none =>
    rw [hq] at hopen
    cases hopen
  | some q => exact ⟨q, rfl⟩

/-- What is left of a pipe when an end is closed. -/
def rest (q : Pipes.Pipe) (w : Bool) : Option Pipes.Pipe :=
  if (q.close w).freed then none else some (q.close w)

theorem pipeclose_ends {q : Pipes.Pipe} (hq : s.pipes pg = some q) :
    Ends (fun _ t => ∃ kmem log, t = { s with
        pipes := Function.update s.pipes pg (rest q w), kmem := kmem, log := log } ∧
      kmem.freelist = (if (q.close w).freed then [pg] else []) ++ s.kmem.freelist ∧
      log = s.log ++ if (q.close w).freed then [.freed pg] else [])
      Legal (pipeclose pg w s) := by
  simp only [pipeclose, run_get_bind, hq, setPipe, run_modify_bind]
  cases hfreed : (q.close w).freed with
  | true =>
    rw [if_pos rfl]
    refine (onKmem_ends kfree_freelist).bind fun _ t ⟨kmem, ht, hlist⟩ => ?_
    rw [ht]
    simp only [record, run_modify_bind, run_modify, ends_ok, if_true, rest, hfreed]
    exact ⟨kmem, _, by rw [Function.update_idem], hlist, rfl⟩
  | false =>
    simp only [Bool.false_eq_true, if_false, run_pure, ends_ok, rest, hfreed]
    exact ⟨s.kmem, s.log, rfl, rfl, (List.append_nil _).symm⟩

theorem isOpen_rest (q : Pipes.Pipe) (w w' : Bool) :
    ((rest q w).elim false fun q => q.isOpen w') = (q.isOpen w' && !decide (w' = w)) := by
  cases w <;> cases w' <;> cases hr : q.readopen <;> cases hw : q.writeopen <;>
    simp [rest, Pipes.Pipe.freed, Pipes.Pipe.close, Pipes.Pipe.isOpen, hr, hw]

theorem freed_rest {q q' : Pipes.Pipe} (h : rest q w = some q') : q'.freed = false := by
  unfold rest at h
  split_ifs at h with hf
  rw [← Option.some.inj h]
  exact Bool.eq_false_of_not_eq_true hf

/-- The last reference to a file is gone. -/
theorem Filed.close {K' : FileId → ℤ} {x : Names.File} (h : Filed K s) (hr : Refs K' t.fs)
    (hfile : t.fs.file = Function.update s.fs.file f x) (href : x.ref = 0) (hip : x.ip = none)
    (hpipe : t.pipe = Function.update s.pipe f none)
    (hopen : ∀ pg w, t.isOpen pg w = (s.isOpen pg w && !decide (s.endOf f = some (pg, w))))
    (hlive : ∀ pg q, t.pipes pg = some q → q.freed = false) (hnodup : t.kmem.freelist.Nodup)
    (hapart : ∀ pg ∈ t.kmem.freelist, t.pipes pg = none)
    (hlog : ∀ pg, t.log.count (.made pg) =
      t.log.count (.freed pg) + if (t.pipes pg).isSome then 1 else 0) : Filed K' t := by
  have hend : t.endOf = Function.update s.endOf f none := by
    funext g
    rw [State.endOf, hpipe, hfile]
    by_cases hg : g = f
    · rw [hg, Function.update_self, Function.update_self, Function.update_self]
      rfl
    · rw [Function.update_of_ne hg, Function.update_of_ne hg, Function.update_of_ne hg]
      rfl
  refine ⟨hr, fun g => ?_, fun g => ?_, fun pg w => ?_, hlive, hnodup, hapart, hlog⟩
  · rw [hfile, hpipe]
    by_cases hg : g = f
    · rw [hg, Function.update_self, Function.update_self]
      exact ⟨fun _ => ⟨hip, rfl⟩, fun _ => href⟩
    · rw [Function.update_of_ne hg, Function.update_of_ne hg]
      exact h.object g
  · rw [hfile, hpipe]
    by_cases hg : g = f
    · rw [hg, Function.update_self]
      exact .inl hip
    · rw [Function.update_of_ne hg, Function.update_of_ne hg]
      exact h.single g
  · rw [hend, tally_update, h.ends, hopen, if_neg (show ¬ none = some (pg, w) from nofun)]
    by_cases hf : s.endOf f = some (pg, w)
    · rw [if_pos hf, (h.open_end hf).1, decide_eq_true hf]
      rfl
    · rw [if_neg hf, decide_eq_false hf, Bool.not_false, Bool.and_true, sub_zero, add_zero]

/-- A reference less. -/
theorem Refs.drop {fs fs' : Names.State} (h : Refs K fs) (hproc : fs'.proc = fs.proc)
    (hfile : fs'.file = Function.update fs.file f (fs.file f).closed) :
    Refs (K - Pi.single f 1) fs' := by
  have hset := h.setFile (f := f) (x := (fs.file f).closed) (d := -1) rfl
  intro g
  have hg := hset g
  rw [slots_congr (t := fs') (s := fs) fun p => by rw [hproc], hfile]
  rw [Pi.add_apply, Pi.single_apply] at hg
  rw [Pi.sub_apply, Pi.single_apply]
  change (Function.update fs.file f (fs.file f).closed g).ref = slots fs g + _ at hg
  rw [hg]
  split_ifs
  · rfl
  · omega

/-- The last reference to an end of a pipe is gone. -/
theorem Filed.closeEnd {K' : FileId → ℤ} {x : Names.File} {q : Pipes.Pipe} {kmem : Kmem}
    {log : List PageEvent} {fs : Names.State} (h : Filed K s) (hr : Refs K' fs)
    (hfile : fs.file = Function.update s.fs.file f x) (href : x.ref = 0) (hip : x.ip = none)
    (hp : s.pipe f = some pg) (hw : (s.fs.file f).writable = w) (hq : s.pipes pg = some q)
    (hlist : kmem.freelist = (if (q.close w).freed then [pg] else []) ++ s.kmem.freelist)
    (hlog : log = s.log ++ if (q.close w).freed then [.freed pg] else []) :
    Filed K' ⟨fs, Function.update s.pipe f none, Function.update s.pipes pg (rest q w), kmem,
      log⟩ := by
  have hend : s.endOf f = some (pg, w) := by rw [State.endOf, hp, hw]; rfl
  have hfree : pg ∉ s.kmem.freelist := by
    intro hmem
    have := h.apart pg hmem
    rw [hq] at this
    cases this
  refine h.close hr hfile href hip rfl (fun pg' w' => ?_) (fun pg' q' hq' => ?_) ?_ (fun pg' => ?_)
    fun pg' => ?_
  · show (Function.update s.pipes pg (rest q w) pg').elim false _ = _
    by_cases hpg : pg' = pg
    · have hdecide : decide (some (pg, w) = some (pg, w')) = decide (w' = w) := by
        refine decide_eq_decide.2 ⟨fun h => ?_, fun h => by rw [h]⟩
        exact (Prod.mk.inj (Option.some.inj h)).2.symm
      rw [hpg, Function.update_self, isOpen_rest, State.isOpen, hq, hend, hdecide]
      rfl
    · have hdecide : decide (some (pg, w) = some (pg', w')) = false :=
        decide_eq_false fun h => hpg (Prod.mk.inj (Option.some.inj h)).1.symm
      rw [Function.update_of_ne hpg, hend, hdecide, Bool.not_false, Bool.and_true]
      rfl
  · change Function.update s.pipes pg (rest q w) pg' = some q' at hq'
    by_cases hpg : pg' = pg
    · rw [hpg, Function.update_self] at hq'
      exact freed_rest hq'
    · rw [Function.update_of_ne hpg] at hq'
      exact h.live pg' q' hq'
  · show kmem.freelist.Nodup
    rw [hlist]
    split_ifs
    · exact List.nodup_cons.2 ⟨hfree, h.nodup⟩
    · exact h.nodup
  · show pg' ∈ kmem.freelist → Function.update s.pipes pg (rest q w) pg' = none
    intro hmem
    rw [hlist, List.mem_append] at hmem
    by_cases hpg : pg' = pg
    · rw [hpg, Function.update_self, rest]
      split_ifs at hmem ⊢ with hf
      · rfl
      · rw [hpg] at hmem
        exact absurd hmem (by simpa using hfree)
    · rw [Function.update_of_ne hpg]
      refine h.apart pg' (hmem.resolve_left fun hmem => ?_)
      split_ifs at hmem
      · exact hpg (List.mem_singleton.1 hmem)
      · cases hmem
  · show log.count (.made pg') = log.count (.freed pg') +
      if (Function.update s.pipes pg (rest q w) pg').isSome then 1 else 0
    have hcount := h.log pg'
    rw [hlog, List.count_append, List.count_append]
    by_cases hpg : pg' = pg
    · rw [hpg, hq] at hcount
      rw [hpg, Function.update_self, rest]
      cases hf : (q.close w).freed with
      | true => simpa using hcount
      | false => simpa using hcount
    · rw [Function.update_of_ne hpg, hcount]
      cases hf : (q.close w).freed with
      | true => simp [Ne.symm hpg]
      | false => simp

theorem shrinks_close (hpos : 1 ≤ (s.fs.file f).ref)
    (hfile : t.fs.file = Function.update s.fs.file f (s.fs.file f).closed)
    (hpipe : ∀ g, t.pipe g = s.pipe g ∨ g = f ∧ (s.fs.file f).ref = 1) : Shrinks s t := by
  intro g hg
  rw [Same, hfile] at *
  by_cases hgf : g = f
  · subst hgf
    rw [Function.update_self] at hg ⊢
    have hone : (s.fs.file g).ref ≠ 1 := by
      intro hone
      rw [File.closed, hone] at hg
      exact hg rfl
    exact ⟨by omega, if_neg hone, (hpipe g).resolve_right fun h => hone h.2, rfl⟩
  · rw [Function.update_of_ne hgf] at hg ⊢
    exact ⟨hg, rfl, (hpipe g).resolve_right fun h => hgf h.1, rfl⟩

theorem fileclose_filed (h : Filed K s) :
    Ends (fun _ t => Filed (K - Pi.single f 1) t ∧ t.fs.proc = s.fs.proc ∧ Shrinks s t) Legal
      (fileclose f s) := by
  simp only [fileclose, run_get_bind]
  refine (onFs_ends fileclose_table).bind fun _ t ⟨fs, ht, hpos, hproc, hfile⟩ => ?_
  have hrefs := Refs.drop h.refs hproc hfile
  split_ifs with hone
  · have hzero : (s.fs.file f).closed.ref = 0 := by
      show (s.fs.file f).ref - 1 = 0
      omega
    have hnone : (s.fs.file f).closed.ip = none := if_pos hone
    cases hp : s.pipe f with
    | none =>
      have hend : s.endOf f = none := by rw [State.endOf, hp]; rfl
      refine ends_ok.2 ⟨h.close (x := (s.fs.file f).closed) (f := f) ?_ ?_ hzero hnone ?_ ?_ ?_ ?_
        ?_ ?_, ?_, ?_⟩
      all_goals rw [ht]
      · exact hrefs
      · exact hfile
      · exact (hp ▸ Function.update_eq_self f s.pipe).symm
      · intro pg w
        rw [hend, decide_eq_false nofun, Bool.not_false, Bool.and_true]
        rfl
      · exact h.live
      · exact h.nodup
      · exact h.apart
      · exact h.log
      · exact hproc
      · exact shrinks_close hpos hfile fun g => .inl rfl
    | some pg =>
      have hend : s.endOf f = some (pg, (s.fs.file f).writable) := by rw [State.endOf, hp]; rfl
      obtain ⟨-, q, hq⟩ := h.open_end hend
      dsimp only
      rw [run_modify_bind, ht]
      have hclose := pipeclose_ends (w := (s.fs.file f).writable)
        (s := ⟨fs, Function.update s.pipe f none, s.pipes, s.kmem, s.log⟩) hq
      refine hclose.post fun _ u ⟨kmem, log, hu, hlist, hlog⟩ => ?_
      rw [hu]
      refine ⟨h.closeEnd hrefs hfile hzero hnone hp rfl hq hlist hlog, hproc,
        shrinks_close hpos hfile fun g => ?_⟩
      by_cases hg : g = f
      · exact .inr ⟨hg, hone⟩
      · exact .inl (Function.update_of_ne hg ..)
  · rw [ht]
    refine ends_ok.2 ⟨?_, hproc, shrinks_close hpos hfile fun g => .inl rfl⟩
    refine h.recount hrefs ?_
    have hclosed : (s.fs.file f).closed =
        { s.fs.file f with ref := (s.fs.file f).ref - 1 } := by
      rw [File.closed, if_neg hone]
    have hset : Recounted s.fs (s.fs.setFile f _) :=
      .setRef (f := f) (n := (s.fs.file f).ref - 1) (by omega) (by omega)
    rw [hclosed] at hfile
    exact hset.trans (.of_file hfile)

/-! ### `pipealloc` -/

/-- A file that has just been allocated holds nothing. -/
theorem fileclose_new {x : Names.File} (href : x.ref = 0) (hip : x.ip = none)
    (hf : s.fs.file f = { x with ref := 1 }) (hp : s.pipe f = none) :
    Ends (fun _ t => ∃ fs, t = { s with fs := fs } ∧ fs.proc = s.fs.proc ∧
      fs.file = Function.update s.fs.file f x) Legal (fileclose f s) := by
  simp only [fileclose, run_get_bind]
  refine (onFs_ends fileclose_table).bind fun _ t ⟨fs, ht, _, hproc, hfile⟩ => ?_
  rw [hf, File.closed_new href hip] at hfile
  rw [if_pos (show (s.fs.file f).ref = 1 by rw [hf]), hp]
  exact ends_ok.2 ⟨fs, ht, hproc, hfile⟩

/-- Two files have become the ends of a new pipe. -/
theorem Filed.openEnds {x y : Names.File} {q : Pipes.Pipe} (h : Filed K s)
    (hf : (s.fs.file f).ref = 0) (hg : (s.fs.file g).ref = 0) (hne : g ≠ f)
    (hfile : t.fs.file = Function.update (Function.update s.fs.file f x) g y)
    (hproc : t.fs.proc = s.fs.proc) (hx : x.ref = 1 ∧ x.ip = none ∧ x.writable = false)
    (hy : y.ref = 1 ∧ y.ip = none ∧ y.writable = true) (hq : q.readopen ∧ q.writeopen)
    (hpipe : t.pipe = Function.update (Function.update s.pipe f (some pg)) g (some pg))
    (hpipes : t.pipes = Function.update s.pipes pg (some q))
    (hlist : s.kmem.freelist = pg :: t.kmem.freelist) (hlog : t.log = s.log ++ [.made pg]) :
    Filed (K + Pi.single f 1 + Pi.single g 1) t := by
  have hpg : s.pipes pg = none := h.apart pg (by rw [hlist]; exact List.mem_cons_self)
  have hnodup := h.nodup
  rw [hlist, List.nodup_cons] at hnodup
  have hendf : s.endOf f = none := by rw [State.endOf, ((h.object f).1 hf).2]; rfl
  have hendg : s.endOf g = none := by rw [State.endOf, ((h.object g).1 hg).2]; rfl
  have hend : t.endOf =
      Function.update (Function.update s.endOf f (some (pg, false))) g (some (pg, true)) := by
    funext k
    rw [State.endOf, hfile, hpipe]
    by_cases hkg : k = g
    · rw [hkg, Function.update_self, Function.update_self, Function.update_self, ← hy.2.2]
      rfl
    · rw [Function.update_of_ne hkg, Function.update_of_ne hkg, Function.update_of_ne hkg]
      by_cases hkf : k = f
      · rw [hkf, Function.update_self, Function.update_self, Function.update_self, ← hx.2.2]
        rfl
      · rw [Function.update_of_ne hkf, Function.update_of_ne hkf, Function.update_of_ne hkf]
        rfl
  refine ⟨fun k => ?_, fun k => ?_, fun k => ?_, fun pg' w => ?_, fun pg' q' hq' => ?_, hnodup.2,
    fun pg' hmem => ?_, fun pg' => ?_⟩
  · have hk := h.refs k
    rw [slots_congr (t := t.fs) (s := s.fs) fun p => by rw [hproc], hfile, Pi.add_apply,
      Pi.add_apply, Pi.single_apply, Pi.single_apply]
    by_cases hkg : k = g
    · rw [hkg, hg] at hk
      rw [hkg, Function.update_self, hy.1, if_neg hne, if_pos rfl]
      omega
    · rw [Function.update_of_ne hkg, if_neg hkg]
      by_cases hkf : k = f
      · rw [hkf, hf] at hk
        rw [hkf, Function.update_self, hx.1, if_pos rfl]
        omega
      · rw [Function.update_of_ne hkf, if_neg hkf, hk]
        omega
  · rw [hfile, hpipe]
    by_cases hkg : k = g
    · rw [hkg, Function.update_self, Function.update_self, hy.1]
      exact ⟨nofun, nofun⟩
    · rw [Function.update_of_ne hkg, Function.update_of_ne hkg]
      by_cases hkf : k = f
      · rw [hkf, Function.update_self, Function.update_self, hx.1]
        exact ⟨nofun, nofun⟩
      · rw [Function.update_of_ne hkf, Function.update_of_ne hkf]
        exact h.object k
  · rw [hfile, hpipe]
    by_cases hkg : k = g
    · rw [hkg, Function.update_self]
      exact .inl hy.2.1
    · rw [Function.update_of_ne hkg, Function.update_of_ne hkg]
      by_cases hkf : k = f
      · rw [hkf, Function.update_self]
        exact .inl hx.2.1
      · rw [Function.update_of_ne hkf, Function.update_of_ne hkf]
        exact h.single k
  · rw [hend, tally_update, tally_update, h.ends, Function.update_of_ne hne, hendf, hendg]
    by_cases hp : pg' = pg
    · have hold : s.isOpen pg w = false := by rw [State.isOpen, hpg]; rfl
      rw [hp, hold, State.isOpen, hpipes, Function.update_self]
      cases w <;> simp [Pipes.Pipe.isOpen, hq]
    · have hsame : t.isOpen pg' w = s.isOpen pg' w := by
        rw [State.isOpen, hpipes, Function.update_of_ne hp]
        rfl
      rw [hsame]
      simp [Ne.symm hp]
  · rw [hpipes] at hq'
    by_cases hp : pg' = pg
    · rw [hp, Function.update_self] at hq'
      rw [← Option.some.inj hq', Pipes.Pipe.freed, hq.1]
      rfl
    · rw [Function.update_of_ne hp] at hq'
      exact h.live pg' q' hq'
  · have hp : pg' ≠ pg := by
      rintro rfl
      exact hnodup.1 hmem
    rw [hpipes, Function.update_of_ne hp]
    exact h.apart pg' (by rw [hlist]; exact List.mem_cons_of_mem _ hmem)
  · have hcount := h.log pg'
    rw [hlog, hpipes, List.count_append, List.count_append]
    by_cases hp : pg' = pg
    · rw [hp, hpg] at hcount
      rw [hp, Function.update_self]
      simpa using hcount
    · rw [Function.update_of_ne hp, hcount]
      simp [Ne.symm hp]

theorem update_back {β : Type} {F : FileId → β} {a b : β} :
    Function.update (Function.update (Function.update (Function.update F f a) g b) f (F f)) g
      (F g) = F := by
  funext k
  by_cases hkg : k = g
  · rw [hkg, Function.update_self]
  · rw [Function.update_of_ne hkg]
    by_cases hkf : k = f
    · rw [hkf, Function.update_self]
    · rw [Function.update_of_ne hkf, Function.update_of_ne hkg, Function.update_of_ne hkf]

theorem extends_file {fs : Names.State} (h : fs.file = s.fs.file) : Extends s { s with fs := fs } := by
  intro f hf
  rw [Same, h]
  exact ⟨hf, rfl, rfl, rfl⟩

/-- `pipealloc` makes a pipe with two new files, or leaves everything as it was. -/
theorem pipealloc_filed (h : Filed K s) :
    Ends (fun o t => Filed (o.elim K fun x => K + Pi.single x.1 1 + Pi.single x.2 1) t ∧
      t.fs.proc = s.fs.proc ∧ Extends s t) Legal (pipealloc s) := by
  refine (onFs_ends (S := fun _ => True) filealloc_table).bind fun o t ht => ?_
  cases o with
  | none =>
    obtain ⟨fs, rfl, hfs⟩ := ht
    obtain rfl := hfs
    exact ends_ok.2 ⟨h, rfl, fun _ hk => ⟨hk, rfl, rfl, rfl⟩⟩
  | some f =>
    obtain ⟨_, rfl, hf, rfl⟩ := ht
    have hempty := (h.object f).1 hf
    refine (onFs_ends (S := fun _ => True) filealloc_table).bind fun o t ht => ?_
    cases o with
    | none =>
      obtain ⟨_, rfl, hfs⟩ := ht
      obtain rfl := hfs
      have hclose := fileclose_new (f := f) (s := { s with
        fs := s.fs.setFile f { s.fs.file f with ref := 1 } }) hf hempty.1
        (Function.update_self ..) hempty.2
      refine hclose.bind fun _ t ⟨fs, ht, hproc, hfile⟩ => ?_
      rw [run_pure, ends_ok, ht]
      have hback : fs.file = s.fs.file := by
        rw [hfile]
        show Function.update (Function.update s.fs.file f _) f _ = s.fs.file
        rw [Function.update_idem, Function.update_eq_self]
      exact ⟨h.frame hback fun p => by rw [hproc]; rfl, hproc, extends_file hback⟩
    | some g =>
      obtain ⟨fs, rfl, hg, hfs⟩ := ht
      have hne : g ≠ f := by
        rintro rfl
        have hzero : (Names.State.file (s.fs.setFile g { s.fs.file g with ref := 1 }) g).ref = 0 := hg
        have hself : (s.fs.setFile g { s.fs.file g with ref := 1 }).file g =
            { s.fs.file g with ref := 1 } := Function.update_self ..
        rw [hself] at hzero
        cases hzero
      have hother : (s.fs.setFile f { s.fs.file f with ref := 1 }).file g = s.fs.file g :=
        Function.update_of_ne hne ..
      change (Names.State.file (s.fs.setFile f { s.fs.file f with ref := 1 }) g).ref = 0 at hg
      rw [hother] at hg
      have hemptyg := (h.object g).1 hg
      have hfile : fs.file = Function.update (Function.update s.fs.file f
          { s.fs.file f with ref := 1 }) g { s.fs.file g with ref := 1 } := by
        rw [hfs, ← hother]
        rfl
      have hproc : fs.proc = s.fs.proc := by rw [hfs]; rfl
      have hfile_f : fs.file f = { s.fs.file f with ref := 1 } := by
        rw [hfile, Function.update_of_ne hne.symm, Function.update_self]
      have hfile_g : fs.file g = { s.fs.file g with ref := 1 } := by
        rw [hfile, Function.update_self]
      refine (onKmem_ends kalloc_freelist).bind fun o t ht => ?_
      cases o with
      | none =>
        obtain ⟨_, rfl, hkmem⟩ := ht
        obtain rfl := hkmem
        have hclose_f := fileclose_new (f := f) (s := { s with fs := fs }) hf hempty.1 hfile_f
          hempty.2
        refine hclose_f.bind fun _ t ⟨fs', ht, hproc', hfile'⟩ => ?_
        rw [ht]
        have hclose_g := fileclose_new (f := g) (s := { s with fs := fs' }) hg hemptyg.1
          (by rw [hfile', Function.update_of_ne hne, hfile_g]) hemptyg.2
        refine hclose_g.bind fun _ t ⟨fs'', ht, hproc'', hfile''⟩ => ?_
        have hall : fs''.proc = s.fs.proc := hproc''.trans (hproc'.trans hproc)
        rw [run_pure, ends_ok, ht]
        have hback : fs''.file = s.fs.file := by
          rw [hfile'', hfile', hfile]
          exact update_back
        exact ⟨h.frame hback fun p => by rw [hall], hall, extends_file hback⟩
      | some pg =>
        obtain ⟨kmem, rfl, hlist⟩ := ht
        simp only [setPipe, record, setEnd, run_modify_bind, run_pure, ends_ok]
        obtain ⟨fs', hfs'⟩ : ∃ fs', fs' = ((fs.setFile f { fs.file f with
            ip := none, readable := !false, writable := false }).setFile g
            { (fs.setFile f { fs.file f with
              ip := none, readable := !false, writable := false }).file g with
              ip := none, readable := !true, writable := true }) := ⟨_, rfl⟩
        rw [← hfs']
        have hfile' : fs'.file = Function.update (Function.update s.fs.file f { s.fs.file f with
            ref := 1, ip := none, readable := true, writable := false }) g
            { s.fs.file g with ref := 1, ip := none, readable := false, writable := true } := by
          funext k
          rw [hfs']
          show Function.update (Function.update fs.file f _) g _ k = _
          by_cases hkg : k = g
          · have hsame : (fs.setFile f { fs.file f with
                ip := none, readable := !false, writable := false }).file g = fs.file g :=
              Function.update_of_ne hne ..
            rw [hkg, Function.update_self, Function.update_self, hsame, hfile_g]
            rfl
          · rw [Function.update_of_ne hkg, Function.update_of_ne hkg]
            by_cases hkf : k = f
            · rw [hkf, Function.update_self, Function.update_self, hfile_f]
              rfl
            · rw [Function.update_of_ne hkf, Function.update_of_ne hkf, hfile,
                Function.update_of_ne hkg, Function.update_of_ne hkf]
        have hproc' : fs'.proc = s.fs.proc := by
          rw [hfs']
          exact hproc
        refine ⟨h.openEnds hf hg hne hfile' hproc' ⟨rfl, rfl, rfl⟩ ⟨rfl, rfl, rfl⟩ ⟨rfl, rfl⟩ rfl
          rfl hlist rfl, hproc', fun k hk => ?_⟩
        have hkf : k ≠ f := by
          rintro rfl
          exact hk hf
        have hkg : k ≠ g := by
          rintro rfl
          exact hk hg
        rw [Same]
        dsimp only
        rw [hfile', Function.update_of_ne hkg, Function.update_of_ne hkf, Function.update_of_ne hkg,
          Function.update_of_ne hkf]
        exact ⟨hk, rfl, rfl, rfl⟩

end Xv6Container.Files
