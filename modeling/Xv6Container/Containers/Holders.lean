import Xv6Container.Containers.Effects

/-! The slots that `fork` and `joinContainer` are filling. Between the moment
`allocproc` takes a slot and the moment its process becomes RUNNABLE the slot belongs to
the one process that creates it; this holds in every run, whatever is interleaved. -/

namespace Xv6Container.Containers

variable {s t : Sys} {a : Act}

/-- A slot that some process is filling is an EMBRYO and has one such process, which is
itself alive. -/
structure Holders (s : Sys) : Prop where
  live : ∀ q, s.stage q ≠ .idle → (s.state q).live
  embryo : ∀ q np, (s.stage q).held = some np → s.state np = .embryo
  unique : ∀ q q' np, (s.stage q).held = some np → (s.stage q').held = some np → q = q'

namespace Holders

theorem ne_held (h : Holders s) {p q np : Slot} (hp : (s.state p).live)
    (hq : (s.stage q).held = some np) : p ≠ np := by
  rintro rfl
  rw [h.embryo q p hq] at hp
  exact hp

theorem congr (h : Holders s) (hpc : t.pc = s.pc) (hstate : t.state = s.state) : Holders t := by
  have hstage : t.stage = s.stage := by
    funext q
    rw [Sys.stage, hpc, Sys.stage]
  constructor
  case live =>
    rw [hstage, hstate]
    exact h.live
  case embryo =>
    rw [hstage, hstate]
    exact h.embryo
  case unique =>
    rw [hstage]
    exact h.unique

/-- The stage of a process changes and it goes on holding the same slot. -/
theorem keep (h : Holders s) {p np : Slot} {b : Stage} (hp : (s.stage p).held = some np)
    (hb : b.held = some np) (hstage : t.stage = Function.update s.stage p b)
    (hstate : t.state = s.state) : Holders t where
  live q hq := by
    rw [hstage, Function.update_apply] at hq
    rw [hstate]
    split_ifs at hq with he
    · subst he
      refine h.live q fun hi => ?_
      rw [hi] at hp
      cases hp
    · exact h.live q hq
  embryo q x hq := by
    rw [hstage, Function.update_apply] at hq
    rw [hstate]
    split_ifs at hq with he
    · rw [hb, ← hp] at hq
      exact h.embryo p x hq
    · exact h.embryo q x hq
  unique q q' x hq hq' := by
    rw [hstage, Function.update_apply] at hq hq'
    split_ifs at hq hq' with h1 h2 h2
    · rw [h1, h2]
    · rw [hb, ← hp] at hq
      rw [h1, h.unique p q' x hq hq']
    · rw [hb, ← hp] at hq'
      rw [h2, h.unique q p x hq hq']
    · exact h.unique q q' x hq hq'

/-- A process lets go of the slot it holds, or changes its stage without holding one. -/
theorem drop (h : Holders s) {p : Slot} {b : Stage} (hb : b.held = none)
    (hstage : t.stage = Function.update s.stage p b)
    (hlive : ∀ q, (t.stage q) ≠ .idle → (s.state q).live → (t.state q).live)
    (hp : b ≠ .idle → (s.state p).live)
    (hstate : ∀ x, s.state x = .embryo → (s.stage p).held ≠ some x → t.state x = .embryo) :
    Holders t where
  live q hq := by
    refine hlive q hq ?_
    rw [hstage, Function.update_apply] at hq
    split_ifs at hq with he
    · rw [he]; exact hp hq
    · exact h.live q hq
  embryo q x hq := by
    rw [hstage, Function.update_apply] at hq
    split_ifs at hq with he
    · rw [hb] at hq; cases hq
    · exact hstate x (h.embryo q x hq) fun hpx => he (h.unique q p x hq hpx)
  unique q q' x hq hq' := by
    rw [hstage, Function.update_apply] at hq hq'
    split_ifs at hq hq' with h1 h2 h2
    · rw [h1, h2]
    · rw [hb] at hq; cases hq
    · rw [hb] at hq'; cases hq'
    · exact h.unique q q' x hq hq'

theorem step (h : Holders s) (he : Effect s a t) : Holders t := by
  cases he with
  | quiet _ hstage hstate =>
    refine ⟨fun q hq => ?_, fun q np hq => ?_, ?_⟩
    · rw [hstage] at hq
      exact (hstate q).live.mp (h.live q hq)
    · rw [hstage] at hq
      have hnp := h.embryo q np hq
      rw [(hstate np).eq_of_not_live (by rw [hnp]; exact id), hnp]
    · rw [hstage]; exact h.unique
  | leave p _ hstage hrun hleft hothers _ =>
    refine ⟨fun q hq => ?_, fun q np hq => ?_, ?_⟩
    · by_cases hqp : q = p
      · subst hqp
        rcases hleft with hl | hl <;> rw [hl] <;> trivial
      · rw [hothers q hqp]
        rw [hstage] at hq
        exact h.live q hq
    · rw [hstage] at hq
      have hnp : np ≠ p := (h.ne_held (by rw [hrun]; trivial) hq).symm
      rw [hothers np hnp, h.embryo q np hq]
    · rw [hstage]; exact h.unique
  | alloc p np _ _ hidle hrun hunused _ _ hstage hstate =>
    have hother : ∀ q x, q ≠ p → (t.stage q).held = some x → (s.stage q).held = some x := by
      intro q x hq hx
      rwa [hstage, Function.update_of_ne hq] at hx
    have hself : (t.stage p).held = some np := by rw [hstage, Function.update_self]; rfl
    have hfree : ∀ q, (s.stage q).held ≠ some np := by
      intro q hq
      rw [h.embryo q np hq] at hunused
      cases hunused
    refine ⟨fun q hq => ?_, fun q x hq => ?_, fun q q' x hq hq' => ?_⟩
    · have hlive : (s.state q).live := by
        by_cases hqp : q = p
        · rw [hqp, hrun]; trivial
        · rw [hstage, Function.update_of_ne hqp] at hq
          exact h.live q hq
      have hnp : q ≠ np := by
        rintro rfl
        rw [hunused] at hlive
        exact hlive
      rwa [hstate, Function.update_of_ne hnp]
    · by_cases hqp : q = p
      · rw [hqp, hself] at hq
        cases hq
        rw [hstate, Function.update_self]
      · have hx := hother q x hqp hq
        have hnp : x ≠ np := by
          rintro rfl
          exact hfree q hx
        rw [hstate, Function.update_of_ne hnp]
        exact h.embryo q x hx
    · by_cases h1 : q = p <;> by_cases h2 : q' = p
      · rw [h1, h2]
      · rw [h1, hself] at hq
        cases hq
        exact absurd (hother q' np h2 hq') (hfree q')
      · rw [h2, hself] at hq'
        cases hq'
        exact absurd (hother q np h1 hq) (hfree q)
      · exact h.unique q q' x (hother q x h1 hq) (hother q' x h2 hq')
  | release p np _ hfresh hstage hstate =>
    have hheld : (s.stage p).held = some np := by rw [hfresh]; rfl
    refine h.drop rfl hstage (fun q _ hq => ?_) (fun hb => absurd rfl hb) (fun x hx hne => ?_)
    · rwa [hstate, Function.update_of_ne (h.ne_held hq hheld)]
    · rw [hstate, Function.update_of_ne, hx]
      rintro rfl
      exact hne hheld
  | enterUnlisted p np _ hfresh _ hstage hstate =>
    exact h.keep (by rw [hfresh]; rfl) rfl hstage hstate
  | enter p np k c i _ _ _ hfresh _ _ _ hstage hstate =>
    exact h.keep (by rw [hfresh]; rfl) rfl hstage hstate
  | name p np k _ _ _ hentered _ hstage hstate =>
    exact h.keep (by rw [hentered]; rfl) rfl hstage hstate
  | publish p np k _ hnamed hstage hstate =>
    have hheld : (s.stage p).held = some np := by rw [hnamed]; rfl
    refine h.drop rfl hstage (fun q _ hq => ?_) (fun hb => absurd rfl hb) (fun x hx hne => ?_)
    · rwa [hstate, Function.update_of_ne (h.ne_held hq hheld)]
    · rw [hstate, Function.update_of_ne, hx]
      rintro rfl
      exact hne hheld
  | delist p pp _ _ _ hpc hrun _ hstage hstate =>
    refine h.drop rfl hstage (fun q _ hq => ?_) (fun _ => by rw [hrun]; trivial)
      (fun x hx _ => ?_)
    · rwa [hstate]
    · rw [hstate, hx]
  | exit p _ hrun _ _ hstage hzombie hothers =>
    refine h.drop rfl hstage (fun q hq hl => ?_) (fun hb => absurd rfl hb) (fun x hx _ => ?_)
    · have hqp : q ≠ p := by
        rintro rfl
        rw [hstage, Function.update_self] at hq
        exact hq rfl
      exact (hothers q hqp).live.mp hl
    · have hxp : x ≠ p := by
        rintro rfl
        rw [hrun] at hx
        cases hx
      rw [(hothers x hxp).eq_of_not_live (by rw [hx]; exact id), hx]
  | reap p q _ _ _ _ _ _ hzombie _ hstage hstate =>
    have hne : ∀ x, s.state x ≠ .zombie → t.state x = s.state x := by
      intro x hx
      rw [hstate, Function.update_of_ne]
      rintro rfl
      exact hx hzombie
    refine ⟨fun x hx => ?_, fun x np hx => ?_, ?_⟩
    · rw [hstage] at hx
      have hl := h.live x hx
      rwa [hne x fun hz => by rw [hz] at hl; exact hl]
    · rw [hstage] at hx
      have hnp := h.embryo x np hx
      rw [hne np (by rw [hnp]; decide), hnp]
    · rw [hstage]; exact h.unique

end Holders

end Xv6Container.Containers
