import Xv6Container.Containers.Turns
import Xv6Container.Containers.Bounds

/-! The log of the scheduler. While the log is on, the selection loop marks the entries that it
takes, a container is done once all its entries are marked, and the log goes off once every
container from 1 on is done. With one CPU an entry that is listed all the while has then had its
turn. -/

namespace Xv6Container.Containers

open Lib

variable {s t u : Sys} {a : Act} {n : Fin NCPU} {c : Fin NCONT} {i : Fin PROCESS_COUNT}

/-- Only CPU `n` runs `scheduler`. -/
def OneCpu (n : Fin NCPU) (_ : Sys) : Act → Prop
  | .sched m => m = n
  | _ => True

/-- The marks of a container: its helper flags and `done`. -/
structure Marks where
  helper : Fin PROCESS_COUNT → Bool
  done : Bool

def Sys.marks (s : Sys) (c : Fin NCONT) : Marks :=
  ⟨(s.t.container c).schedulerHelper, (s.t.container c).done⟩

/-- The entry that a step takes from a list. -/
def picked (n : Fin NCPU) (s : Sys) (a : Act) : Option (Fin NCONT × Fin PROCESS_COUNT) :=
  (Fin.find? fun c => decide (s.BeginsTurn n c a)).bind fun c =>
    (s.chosen n c).map fun i => (c, i)

/-! ### Steps outside the scheduler -/

/-- Tables with the same marks, the same log and as many containers. -/
structure Unlogged (x y : Tables) : Prop where
  helper : ∀ c, (y.container c).schedulerHelper = (x.container c).schedulerHelper
  done : ∀ c, (y.container c).done = (x.container c).done
  log : y.schedulerLog = x.schedulerLog
  num : y.containerNum = x.containerNum

namespace Unlogged

variable {x y z : Tables} {p np : Slot}

theorem refl (x : Tables) : Unlogged x x := ⟨fun _ => rfl, fun _ => rfl, rfl, rfl⟩

theorem setContainer (x : Tables) (c : Fin NCONT) (g : Container → Container)
    (hh : (g (x.container c)).schedulerHelper = (x.container c).schedulerHelper)
    (hd : (g (x.container c)).done = (x.container c).done) : Unlogged x (x.setContainer c g) where
  helper d := by
    rw [Tables.setContainer_container]
    split_ifs with h
    · rw [h, hh]
    · rfl
  done d := by
    rw [Tables.setContainer_container]
    split_ifs with h
    · rw [h, hd]
    · rfl
  log := rfl
  num := rfl

theorem insert {k : Creator} {b : Bool} (h : k.insert x p np = .ok (b, y)) : Unlogged x y := by
  have hinsert : ∀ c, x.insertProcess c np = .ok (b, y) → Unlogged x y := by
    intro c hc
    obtain ⟨-, rfl⟩ | ⟨d, i, -, -, -, rfl⟩ := Tables.insertProcess_ok hc
    · exact refl _
    · exact setContainer x d _ rfl rfl
  cases k with
  | join c pp => exact hinsert c h
  | fork =>
    simp only [Creator.insert, Tables.forkInsert] at h
    split_ifs at h
    · exact hinsert _ h
    · cases h
      exact refl x

theorem allocKstack {page : Option Page} {b : Bool} (h : x.allocKstack np page = .ok (b, y)) :
    Unlogged x y := by
  have hset : ∀ (z : Tables) (mem : Option Page), z.setKstack np mem = (b, y) → Unlogged z y := by
    intro z mem hz
    cases mem with
    | none =>
      obtain ⟨-, rfl⟩ := Prod.mk.inj hz
      exact ⟨fun _ => rfl, fun _ => rfl, rfl, rfl⟩
    | some m =>
      obtain ⟨-, rfl⟩ := Prod.mk.inj hz
      exact ⟨fun _ => rfl, fun _ => rfl, rfl, rfl⟩
  unfold Tables.allocKstack at h
  split_ifs at h
  · exact hset x page (Except.ok.inj h)
  · split at h
    · cases h
    next mem z hz =>
      obtain ⟨c, i, -, -, -, rfl⟩ := Tables.conalloc_ok hz
      have hy := hset _ mem (Except.ok.inj h)
      have hcon := setContainer x c (fun k => { k with
        used := i.val + 1
        memory := Function.update k.memory i ⟨i.val, mem.getD 0, mem.getD 0 + 4096, (x.proc np).pid⟩ })
        rfl rfl
      exact ⟨fun d => (hy.helper d).trans (hcon.helper d), fun d => (hy.done d).trans (hcon.done d),
        hy.log.trans hcon.log, hy.num.trans hcon.num⟩

theorem removeProcess {pp m : ℤ} (h : x.removeProcess p pp m = .ok y) : Unlogged x y := by
  obtain rfl | ⟨c, i, -, -, rfl⟩ := Tables.removeProcess_ok h
  · exact refl _
  · exact setContainer x c _ rfl rfl

theorem addContainer {pages : Fin MCONT → Option Page} (h : x.addContainer pages = .ok y) :
    Unlogged x y := by
  obtain ⟨c, -, rfl⟩ := Tables.addContainer_ok h
  exact setContainer x c _ rfl rfl

theorem exitLocked (x : Tables) (p : Slot) : Unlogged x (x.exitLocked p) := by
  have hparent : Unlogged x (x.wakeupParent p) := by
    unfold Tables.wakeupParent
    split
    · exact refl x
    · exact ⟨fun _ => rfl, fun _ => rfl, rfl, rfl⟩
  unfold Tables.exitLocked
  dsimp only
  split_ifs
  · exact ⟨hparent.helper, hparent.done, hparent.log, hparent.num⟩
  · exact ⟨hparent.helper, hparent.done, hparent.log, hparent.num⟩

end Unlogged

theorem section_unlogged {p : Slot} {e : Env} (h : sectionStep s p e = .ok t) :
    Unlogged s.t t.t := by
  unfold sectionStep at h
  split at h
  next => cases h
  next => cases h; exact ⟨fun _ => rfl, fun _ => rfl, rfl, rfl⟩
  next =>
    split at h
    next => cases h
    next => cases h; exact .refl _
    next x hx =>
      cases h
      obtain ⟨-, -, rfl⟩ := Tables.allocproc_some hx
      exact ⟨fun _ => rfl, fun _ => rfl, rfl, rfl⟩
  next =>
    split at h
    next => cases h
    next x hx => cases h; exact .allocKstack hx
    next x hx => split at h <;> cases h <;> exact .allocKstack hx
  next => cases h; exact ⟨fun _ => rfl, fun _ => rfl, rfl, rfl⟩
  next => split_ifs at h <;> cases h <;> exact ⟨fun _ => rfl, fun _ => rfl, rfl, rfl⟩
  next =>
    split at h
    next => cases h
    next x hx =>
      cases h
      have hins := Unlogged.insert hx
      exact ⟨hins.helper, hins.done, hins.log, hins.num⟩
    next x hx => cases h; exact .insert hx
  next => cases h; exact ⟨fun _ => rfl, fun _ => rfl, rfl, rfl⟩
  next => split at h <;> cases h <;> exact ⟨fun _ => rfl, fun _ => rfl, rfl, rfl⟩
  next =>
    split at h
    next => cases h
    next x hx =>
      split_ifs at h
      cases h
      exact .removeProcess hx
  next => cases h; exact .exitLocked s.t _
  next => split at h <;> cases h <;> exact ⟨fun _ => rfl, fun _ => rfl, rfl, rfl⟩
  next =>
    split at h
    next => cases h
    next x hx =>
      cases h
      exact .addContainer hx
  next => cases h; exact .refl _

/-- Steps outside the scheduler leave the marks alone; a call may switch the log on or make a
container. -/
theorem step_marks (hsched : ∀ m, a ≠ .sched m) (ht : step s a = .ok t) :
    t.marks = s.marks ∧ s.t.containerNum ≤ t.t.containerNum ∧
      (t.t.schedulerLog = s.t.schedulerLog ∨ t.t.schedulerLog = true) := by
  have hquiet : Unlogged s.t t.t → t.marks = s.marks ∧ s.t.containerNum ≤ t.t.containerNum ∧
      (t.t.schedulerLog = s.t.schedulerLog ∨ t.t.schedulerLog = true) := by
    intro h
    refine ⟨?_, h.num.ge, .inl h.log⟩
    funext c
    simp only [Sys.marks, h.helper, h.done]
  cases a with
  | call p c =>
    simp only [step] at ht
    split_ifs at ht
    cases c with
    | create_container =>
      cases ht
      exact ⟨rfl, Int.le_add_one le_rfl, .inl rfl⟩
    | scheduler_log_on =>
      cases ht
      exact ⟨rfl, le_rfl, .inr rfl⟩
    | containerProcessNum c =>
      simp only [callStep] at ht
      split at ht
      · cases ht
      · cases ht
        exact hquiet (.refl _)
    | exit =>
      simp only [callStep] at ht
      split_ifs at ht
      cases ht
      exact hquiet (.refl _)
    | kill pid =>
      cases ht
      refine hquiet ?_
      simp only [Sys.back]
      cases hfind : Fin.find? (fun x => (s.t.proc x).pid == pid) with
      | none =>
        rw [Tables.kill_none hfind]
        exact .refl _
      | some q =>
        rw [Tables.kill_some hfind]
        exact ⟨fun _ => rfl, fun _ => rfl, rfl, rfl⟩
    | _ =>
      cases ht
      exact hquiet (.refl _)
  | step p e => exact hquiet (section_unlogged (running_of_step ht).2)
  | yield p =>
    simp only [step] at ht
    split_ifs at ht
    cases ht
    exact hquiet ⟨fun _ => rfl, fun _ => rfl, rfl, rfl⟩
  | sleep p chan =>
    simp only [step] at ht
    split_ifs at ht
    cases ht
    exact hquiet ⟨fun _ => rfl, fun _ => rfl, rfl, rfl⟩
  | wakeup chan =>
    cases ht
    exact hquiet ⟨fun _ => rfl, fun _ => rfl, rfl, rfl⟩
  | sched m => exact absurd rfl (hsched m)

/-! ### Steps of the scheduler -/

/-- What a part of the scheduler's loop does to the marks. -/
inductive MarkMove (s : Sys) (n : Fin NCPU) (t : Sys) : Prop
  | same (marks : t.marks = s.marks) (log : t.t.schedulerLog = s.t.schedulerLog)
  | pick (c : Fin NCONT) (i : Fin PROCESS_COUNT) (begins : s.BeginsTurn n c (.sched n))
      (chosen : s.chosen n c = some i) (log : t.t.schedulerLog = s.t.schedulerLog)
      (on : s.t.schedulerLog = true)
      (marks : t.marks = Function.update s.marks c
        { s.marks c with helper := Function.update (s.marks c).helper i true })
  | done (c : Fin NCONT) (turn : (s.cpu n).cntNum = c.val) (phase : (s.cpu n).phase = .check)
      (log : t.t.schedulerLog = s.t.schedulerLog) (on : s.t.schedulerLog = true)
      (all : ∀ i, (s.list c i).isSome → (s.marks c).helper i = true)
      (marks : t.marks = Function.update s.marks c { s.marks c with done := true })
  | off (log : t.t.schedulerLog = false)
      (all : ∀ c : Fin NCONT, 1 ≤ c.val → (c.val : ℤ) < s.t.containerNum → (s.marks c).done = true)
      (marks : t.marks = fun c => if 1 ≤ c.val ∧ (c.val : ℤ) < s.t.containerNum then
        ⟨fun _ => false, false⟩ else s.marks c)

theorem marks_setContainer {x : Tables} {c : Fin NCONT} {g : Container → Container} {m : Marks}
    (hx : x = s.t.setContainer c g)
    (hg : Marks.mk (g (s.t.container c)).schedulerHelper (g (s.t.container c)).done = m) (w : Sys)
    (hw : w.t = x) : w.marks = Function.update s.marks c m := by
  funext d
  subst hx
  simp only [Sys.marks, hw, Tables.setContainer_container, Function.update_apply]
  split_ifs
  · exact hg
  · rfl

theorem sched_marks (ht : step s (.sched n) = .ok t) :
    MarkMove s n t ∧ t.t.containerNum = s.t.containerNum := by
  have h := sched_step ht
  have hnum := (Calm.schedStep h).containerNum
  have hsame : s.t = t.t → MarkMove s n t := by
    intro heq
    refine .same (funext fun c => ?_) (by rw [heq])
    simp only [Sys.marks, heq]
  refine ⟨?_, hnum⟩
  unfold schedStep at h
  split_ifs at h
  split at h
  next hphase =>
    unfold pick at h
    split at h
    next hlt =>
      split at h
      next => cases h
      next c hc =>
        have hturn : (s.cpu n).cntNum = c.val := by
          have := index_eq_ok.mp hc
          omega
        have hbegins : s.BeginsTurn n c (.sched n) := ⟨rfl, hphase, hturn, by rw [← hturn]; exact hlt⟩
        split at h
        next =>
          have heq := (Prod.mk.inj (Except.ok.inj h)).1
          exact hsame heq
        next i hi =>
          have heq := (Prod.mk.inj (Except.ok.inj h)).1
          split_ifs at heq with hon
          · exact .pick c i hbegins hi (by rw [← heq]; rfl) hon
              (marks_setContainer heq.symm rfl t rfl)
          · exact hsame heq
    next =>
      have heq := (Prod.mk.inj (Except.ok.inj h)).1
      exact hsame heq
  next next _ =>
    have heq := (Prod.mk.inj (Except.ok.inj h)).1
    refine .same (funext fun c => ?_) ?_
    · simp only [Sys.marks, ← heq]
      split <;> rfl
    · rw [← heq]
      split <;> rfl
  next hphase =>
    unfold check at h
    dsimp only at h
    split_ifs at h with hon
    · split at h
      next => cases h
      next c hc =>
        have hturn : (s.cpu n).cntNum = c.val := by
          have := index_eq_ok.mp hc
          omega
        split_ifs at h with hall
        · have heq := (Prod.mk.inj (Except.ok.inj h)).1
          exact .done c hturn hphase (by rw [← heq]; rfl) hon hall
            (marks_setContainer heq.symm rfl t rfl)
        · have heq := (Prod.mk.inj (Except.ok.inj h)).1
          exact hsame heq
    · have heq := (Prod.mk.inj (Except.ok.inj h)).1
      exact hsame heq
  next =>
    unfold endRound at h
    dsimp only at h
    split_ifs at h with hon hle
    · have heq := (Prod.mk.inj (Except.ok.inj h)).1
      refine .off (by rw [← heq]) (fun c h1 h2 => hon.2 c ⟨h1, h2⟩) ?_
      funext c
      simp only [Sys.marks, ← heq]
      split_ifs
      · rfl
      · rfl
    · have heq := (Prod.mk.inj (Except.ok.inj h)).1
      exact hsame heq

/-! ### The marks while the log is off -/

/-- While the log is off there are no marks, and never any on containers that are not made yet. -/
structure Marked (s : Sys) (n : Fin NCPU) : Prop where
  off : s.t.schedulerLog = false → ∀ c : Fin NCONT, 1 ≤ c.val → s.marks c = ⟨fun _ => false, false⟩
  made : ∀ c : Fin NCONT, s.t.containerNum ≤ c.val → s.marks c = ⟨fun _ => false, false⟩
  turn : (s.cpu n).phase.inTurn → ((s.cpu n).cntNum : ℤ) < s.t.containerNum

theorem Marked.step (h : Marked s n) (hg : OneCpu n s a) (ht : Containers.step s a = .ok t) :
    Marked t n := by
  by_cases hsched : ∃ m, a = .sched m
  · obtain ⟨m, rfl⟩ := hsched
    obtain rfl : m = n := hg
    obtain ⟨hmove, hnum⟩ := sched_marks ht
    have hturn : (t.cpu m).phase.inTurn → ((t.cpu m).cntNum : ℤ) < t.t.containerNum := by
      intro hphase
      rw [hnum]
      exact schedStep_inTurn h.turn (sched_step ht) hphase
    have hupdate : ∀ (c : Fin NCONT) (v : Marks), s.t.schedulerLog = true →
        t.t.schedulerLog = s.t.schedulerLog → (c.val : ℤ) < s.t.containerNum →
        t.marks = Function.update s.marks c v → Marked t m := by
      intro c v hon hlog hc hmarks
      refine ⟨fun hoff => ?_, fun d hd => ?_, hturn⟩
      · rw [hlog, hon] at hoff
        cases hoff
      · have hdc : d ≠ c := by
          rintro rfl
          omega
        rw [hmarks, Function.update_of_ne hdc]
        exact h.made d (by omega)
    cases hmove with
    | same hmarks hlog =>
      refine ⟨?_, ?_, hturn⟩
      · rw [hlog, hmarks]
        exact h.off
      · rw [hnum, hmarks]
        exact h.made
    | pick c i hb _ hlog hon hmarks => exact hupdate c _ hon hlog hb.2.2.2 hmarks
    | done c hc hphase hlog hon _ hmarks =>
      have hlt := h.turn (by rw [hphase]; trivial)
      rw [hc] at hlt
      exact hupdate c _ hon hlog hlt hmarks
    | off hlog hall hmarks =>
      refine ⟨fun _ c hc => ?_, fun c hc => ?_, hturn⟩
      · rw [hmarks]
        dsimp only
        split_ifs with hmade
        · rfl
        · exact h.made c (by omega)
      · rw [hmarks]
        dsimp only
        rw [if_neg (by omega)]
        exact h.made c (by omega)
  · have hne : ∀ m, a ≠ .sched m := fun m hm => hsched ⟨m, hm⟩
    obtain ⟨hmarks, hnum, hlog⟩ := step_marks hne ht
    obtain ⟨rfl, -⟩ | ⟨o, ho⟩ := cpu_of_step ht n
    · exact absurd rfl (hne n)
    · refine ⟨fun hoff => ?_, fun c hc => ?_, ?_⟩
      · rw [hmarks]
        obtain hlog | hlog := hlog
        · exact h.off (hlog.symm.trans hoff)
        · rw [hlog] at hoff
          cases hoff
      · rw [hmarks]
        exact h.made c (hnum.trans hc)
      · rw [ho]
        exact fun hphase => lt_of_lt_of_le (h.turn hphase) hnum

theorem Booted.marked (h : Booted s) (n : Fin NCPU) : Marked s n := by
  obtain ⟨page, x, hx, rfl⟩ := h
  obtain ⟨x', hx', -, -, -, -, -, hcon⟩ := Tables.userinit_ok page
  cases Except.ok.inj (hx.symm.trans hx')
  have hmarks : ∀ c, (boot x).marks c = ⟨fun _ => false, false⟩ := by
    intro c
    simp only [Sys.marks, boot, hcon, Function.update_apply]
    split_ifs <;> rfl
  exact ⟨fun _ c _ => hmarks c, fun c _ => hmarks c, fun hphase => absurd hphase id⟩

/-! ### The barrier -/

/-- The log stays on and `p` stays in entry `i` of container `c`. -/
def Stays (n : Fin NCPU) (c : Fin NCONT) (i : Fin PROCESS_COUNT) (p : Slot) (s : Sys) (a : Act) :
    Prop :=
  OneCpu n s a ∧ s.t.schedulerLog = true ∧ s.list c i = some p

theorem picked_of_begins (hb : s.BeginsTurn n c a) (hi : s.chosen n c = some i) :
    picked n s a = some (c, i) := by
  have hfind : Fin.find? (fun d => decide (s.BeginsTurn n d a)) = some c := by
    refine Fin.find?_eq_some_iff.mpr ⟨decide_eq_true hb, fun d hd => ?_⟩
    rw [decide_eq_false_iff_not]
    intro hbd
    unfold Sys.BeginsTurn at hb hbd
    split at hb
    · have := hb.2.2.1.symm.trans hbd.2.2.1
      omega
    · exact hb
  simp only [picked, hfind, Option.bind_some, hi, Option.map_some]

/-- An entry that is listed all the while is marked only once it has been taken. -/
theorem unmarked_of_trace {p : Slot} {l : List (Fin NCONT × Fin PROCESS_COUNT)}
    (h0 : s.marks c = ⟨fun _ => false, false⟩) (h : Trace step (Stays n c i p) (picked n) s l t) :
    (c, i) ∈ l ∨ (t.marks c).helper i = false ∧ (t.marks c).done = false := by
  refine Trace.invariant (I := fun l t => (c, i) ∈ l ∨
    (t.marks c).helper i = false ∧ (t.marks c).done = false) (.inr (by rw [h0]; exact ⟨rfl, rfl⟩))
    ?_ h
  rintro l t a u hl ⟨hone, hon, hlist⟩ hu
  obtain hl | ⟨hhelper, hdone⟩ := hl
  · exact .inl (List.mem_append_left _ hl)
  · by_cases hsched : ∃ m, a = .sched m
    · obtain ⟨m, rfl⟩ := hsched
      obtain rfl : m = n := hone
      cases (sched_marks hu).1 with
      | same hmarks _ => exact .inr (by rw [hmarks]; exact ⟨hhelper, hdone⟩)
      | pick d j hb hj _ _ hmarks =>
        by_cases hd : c = d
        · subst hd
          by_cases hij : i = j
          · subst hij
            left
            rw [picked_of_begins hb hj]
            simp
          · right
            rw [hmarks, Function.update_self]
            exact ⟨(Function.update_of_ne hij ..).trans hhelper, hdone⟩
        · right
          rw [hmarks, Function.update_of_ne hd]
          exact ⟨hhelper, hdone⟩
      | done d _ _ _ _ hall hmarks =>
        right
        have hd : c ≠ d := by
          rintro rfl
          have := hall i (by rw [hlist]; rfl)
          rw [hhelper] at this
          cases this
        rw [hmarks, Function.update_of_ne hd]
        exact ⟨hhelper, hdone⟩
      | off _ _ hmarks =>
        right
        rw [hmarks]
        dsimp only
        split_ifs
        · exact ⟨rfl, rfl⟩
        · exact ⟨hhelper, hdone⟩
    · have hne : ∀ m, a ≠ .sched m := fun m hm => hsched ⟨m, hm⟩
      rw [(step_marks hne hu).1]
      exact .inr ⟨hhelper, hdone⟩

/-- When the log goes off, every entry that has been listed since it went on has had a turn. -/
theorem taken_when_log_ends {s₀ s₁ s₂ s₃ : Sys} {b : Act} {p : Slot}
    {l : List (Fin NCONT × Fin PROCESS_COUNT)} (hs : Reach step (OneCpu n) Booted s₀)
    (hoff : s₀.t.schedulerLog = false) (hg : OneCpu n s₀ a) (hon : step s₀ a = .ok s₁)
    (hon' : s₁.t.schedulerLog = true) (h : Trace step (Stays n c i p) (picked n) s₁ l s₂)
    (hstays : Stays n c i p s₂ b) (hb : step s₂ b = .ok s₃) (hoff' : s₃.t.schedulerLog = false)
    (hc : 1 ≤ c.val) (hmade : (c.val : ℤ) < s₂.t.containerNum) : (c, i) ∈ l := by
  have hmarked : Marked s₀ n := hs.invariant (fun _ hb => hb.marked n)
    fun _ _ _ h hg ht => h.step hg ht
  obtain ⟨hone, hlog, -⟩ := hstays
  -- the log has just gone on
  have hfresh : s₁.marks c = ⟨fun _ => false, false⟩ := by
    by_cases hsched : ∃ m, a = .sched m
    · obtain ⟨m, rfl⟩ := hsched
      obtain rfl : m = n := hg
      cases (sched_marks hon).1 with
      | same _ hlog | pick _ _ _ _ hlog _ _ | done _ _ _ hlog _ _ _ =>
        rw [hlog, hoff] at hon'
        cases hon'
      | off hlog _ _ =>
        rw [hlog] at hon'
        cases hon'
    · rw [(step_marks (fun m hm => hsched ⟨m, hm⟩) hon).1]
      exact hmarked.off hoff c hc
  obtain hl | ⟨-, hdone⟩ := unmarked_of_trace hfresh h
  · exact hl
  · by_cases hsched : ∃ m, b = .sched m
    · obtain ⟨m, rfl⟩ := hsched
      obtain rfl : m = n := hone
      cases (sched_marks hb).1 with
      | same _ hsame | pick _ _ _ _ hsame _ _ | done _ _ _ hsame _ _ _ =>
        rw [hsame, hlog] at hoff'
        cases hoff'
      | off _ hall _ =>
        rw [hall c hc hmade] at hdone
        cases hdone
    · obtain ⟨-, -, hsame | hsame⟩ := step_marks (fun m hm => hsched ⟨m, hm⟩) hb
      · rw [hsame, hlog] at hoff'
        cases hoff'
      · rw [hsame] at hoff'
        cases hoff'

instance (n : Fin NCPU) (s : Sys) (a : Act) : Decidable (OneCpu n s a) :=
  match a with
  | .sched m => inferInstanceAs (Decidable (m = n))
  | .call _ _ | .step _ _ | .yield _ | .sleep _ _ | .wakeup _ => .isTrue trivial

instance (n : Fin NCPU) (c : Fin NCONT) (i : Fin PROCESS_COUNT) (p : Slot) (s : Sys) (a : Act) :
    Decidable (Stays n c i p s a) :=
  inferInstanceAs (Decidable (OneCpu n s a ∧ s.t.schedulerLog = true ∧ s.list c i = some p))

/-- The process that joined container 1 switches the log on, and is taken before it goes off. -/
theorem taken_when_log_ends_joined : ∃ l : List (Fin NCONT × Fin PROCESS_COUNT),
    l = [(0, 0), (1, 0)] ∧ (1, 0) ∈ l := by
  have hboot : Reach step (OneCpu 0) Booted firstBoot := .start booted_firstBoot
  let middle := .yield 2 :: turns 6 ++ sections 0 1 ++ .call 0 .wait :: sections 0 1 ++ turns 4 ++
    .yield 2 :: turns 3
  obtain ⟨s₀, hs, htest⟩ := hboot.of_endsIn
    (fun s => !s.t.schedulerLog && match step s (.call 2 .scheduler_log_on) with
      | .ok t => t.t.schedulerLog && watch step (Stays 0 1 0 2) (picked 0)
          (fun l u => decide (l = [(0, 0), (1, 0)]) && decide (Stays 0 1 0 2 u (.sched 0)) &&
            decide (1 < u.t.containerNum) && match step u (.sched 0) with
              | .ok v => !v.t.schedulerLog
              | .error _ => false) [] t middle
      | .error _ => false) joinRun (by decide +kernel)
  simp only [Bool.and_eq_true, Bool.not_eq_true'] at htest
  obtain ⟨hoff, htest⟩ := htest
  split at htest
  next s₁ hon =>
    simp only [Bool.and_eq_true] at htest
    obtain ⟨hon', htest⟩ := htest
    obtain ⟨l, s₂, hl, htest⟩ := Trace.nil.of_watch _ middle htest
    simp only [Bool.and_eq_true, decide_eq_true_eq] at htest
    obtain ⟨⟨⟨heq, hstays⟩, hmade⟩, htest⟩ := htest
    split at htest
    next s₃ hb =>
      exact ⟨l, heq, taken_when_log_ends (a := .call 2 .scheduler_log_on) hs hoff trivial hon hon'
        hl hstays hb
        (by simpa using htest) (by decide) hmade⟩
    next => cases htest
  next => cases htest

end Xv6Container.Containers
