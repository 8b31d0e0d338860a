import Xv6Container.Containers.Schedulable
import Xv6Container.Containers.Slots
import Xv6Container.Lib.Rotation
import Xv6Container.Lib.Trace

/-! The turns of the scheduler. In a turn of a container the selection loop takes an entry of
its list, the first one from `curLocation` on, and the scan runs the process that it names, if
that is RUNNABLE and in the container. The entries take turns whatever is listed and delisted in
between; and no turn runs two processes, or a process of another container. -/

namespace Xv6Container.Containers

open Lib

variable {s t u v : Sys} {a : Act} {n : Fin NCPU} {c : Fin NCONT}

/-! ### The selection loop -/

section Select
variable {process : Fin PROCESS_COUNT → Option Slot} {pos num : ℕ} {i j : Fin PROCESS_COUNT}

theorem ahead_eq_zero : ahead pos j = 0 ↔ j.val = pos % PROCESS_COUNT := by
  have hj := j.isLt
  have hpos := Nat.mod_lt pos (Nat.zero_lt_of_lt hj)
  unfold ahead
  split_ifs
  all_goals omega

/-- The loop looks at the next place. -/
theorem ahead_next (h : j.val ≠ pos % PROCESS_COUNT) :
    ahead pos j = ahead (pos % PROCESS_COUNT + 1) j + 1 := by
  have hj := j.isLt
  unfold ahead
  simp only [PROCESS_COUNT] at hj h ⊢
  split_ifs
  all_goals omega

theorem select_some (h : select process pos num = some i) :
    (process i).isSome ∧ ∀ j, (process j).isSome → ahead pos i ≤ ahead pos j := by
  induction num generalizing pos with
  | zero => cases h
  | succ num ih =>
    unfold select at h
    dsimp only at h
    split_ifs at h with hsome
    · obtain rfl := Option.some.inj h
      refine ⟨hsome, fun j _ => ?_⟩
      rw [ahead_eq_zero.2 rfl]
      exact Nat.zero_le _
    · obtain ⟨hi, hfirst⟩ := ih h
      have hne : ∀ k, (process k).isSome → k.val ≠ pos % PROCESS_COUNT := by
        intro k hk heq
        have hk' : k = ⟨pos % PROCESS_COUNT, Nat.mod_lt _ (by decide)⟩ := Fin.ext heq
        rw [hk'] at hk
        exact hsome hk
      refine ⟨hi, fun j hj => ?_⟩
      rw [ahead_next (hne i hi), ahead_next (hne j hj)]
      exact Nat.succ_le_succ (hfirst j hj)

theorem select_none (h : select process pos num = none) (hj : ahead pos j < num) :
    process j = none := by
  induction num generalizing pos with
  | zero => exact absurd hj (Nat.not_lt_zero _)
  | succ num ih =>
    unfold select at h
    dsimp only at h
    split_ifs at h with hsome
    by_cases heq : j.val = pos % PROCESS_COUNT
    · have hj' : j = ⟨pos % PROCESS_COUNT, Nat.mod_lt _ (by decide)⟩ := Fin.ext heq
      rw [hj']
      simpa using hsome
    · refine ih h ?_
      have := ahead_next heq
      omega

end Select

/-! ### The locals of a CPU -/

/-- A section leaves the CPUs alone or takes its process off one. -/
theorem section_cpu {p : Slot} {e : Env} (h : sectionStep s p e = .ok t) :
    t.cpu = s.cpu ∨ t.cpu = (s.offCpu p).cpu := by
  unfold sectionStep at h
  split at h
  case h_1 => cases h
  case h_2 | h_5 | h_8 | h_14 => cases h; exact .inl rfl
  case h_11 => cases h; exact .inr rfl
  case h_6 => split_ifs at h <;> cases h <;> exact .inl rfl
  case h_10 =>
    split at h
    · cases h
    · split_ifs at h
      cases h
      exact .inl rfl
  case h_4 =>
    split at h
    · cases h
    · cases h; exact .inl rfl
    · split at h <;> cases h <;> exact .inl rfl
  case h_13 =>
    split at h
    · cases h
    · cases h; exact .inl rfl
  case h_9 => split at h <;> cases h <;> exact .inl rfl
  case h_12 =>
    split at h
    · cases h; exact .inl rfl
    · cases h; exact .inl rfl
    · cases h; exact .inr rfl
  case h_3 | h_7 =>
    split at h
    · cases h
    · cases h; exact .inl rfl
    · cases h; exact .inl rfl

/-- Only its own steps move a CPU's loop; the process on it may leave it. -/
theorem cpu_of_step (ht : step s a = .ok t) (n : Fin NCPU) :
    (a = .sched n ∧ schedStep s.t (s.cpu n) = .ok (t.t, t.cpu n)) ∨
      ∃ o, t.cpu n = { s.cpu n with proc := o } := by
  have hoff : ∀ (w : Sys) (p : Slot), w.cpu n = s.cpu n →
      ∃ o, (w.offCpu p).cpu n = { s.cpu n with proc := o } := by
    intro w p hw
    simp only [Sys.offCpu, hw]
    split_ifs
    · exact ⟨none, rfl⟩
    · exact ⟨(s.cpu n).proc, rfl⟩
  cases a with
  | call p c =>
    simp only [step] at ht
    split_ifs at ht
    refine .inr ⟨(s.cpu n).proc, ?_⟩
    cases c with
    | containerProcessNum c =>
      simp only [callStep] at ht
      split at ht
      · cases ht
      · cases ht
        rfl
    | exit =>
      simp only [callStep] at ht
      split_ifs at ht
      cases ht
      rfl
    | _ => cases ht; rfl
  | step p e =>
    right
    obtain hcpu | hcpu := section_cpu (running_of_step ht).2
    · exact ⟨(s.cpu n).proc, by rw [hcpu]⟩
    · obtain ⟨o, ho⟩ := hoff s p rfl
      exact ⟨o, by rw [hcpu, ho]⟩
  | yield p =>
    simp only [step] at ht
    split_ifs at ht
    cases ht
    exact .inr (hoff _ p rfl)
  | sleep p chan =>
    simp only [step] at ht
    split_ifs at ht
    cases ht
    exact .inr (hoff _ p rfl)
  | wakeup chan =>
    cases ht
    exact .inr ⟨(s.cpu n).proc, rfl⟩
  | sched m =>
    simp only [step] at ht
    split at ht
    · cases ht
    next x w hx =>
      cases ht
      by_cases hm : n = m
      · subst hm
        refine .inl ⟨rfl, ?_⟩
        rw [hx]
        simp
      · refine .inr ⟨(s.cpu n).proc, ?_⟩
        exact Function.update_of_ne hm ..

/-! ### Rotation -/

/-- The entry that the selection loop of CPU `n` takes from the list of `c`. -/
def Sys.chosen (s : Sys) (n : Fin NCPU) (c : Fin NCONT) : Option (Fin PROCESS_COUNT) :=
  select (s.list c) ((s.cpu n).curLocation c) PROCESS_COUNT

/-- CPU `n` begins a turn of container `c`. -/
def Sys.BeginsTurn (s : Sys) (n : Fin NCPU) (c : Fin NCONT) (a : Act) : Prop :=
  match a with
  | .sched m => m = n ∧ (s.cpu n).phase = .pick ∧ (s.cpu n).cntNum = c.val ∧
    (c.val : ℤ) < s.t.containerNum
  | _ => False

instance (s : Sys) (n : Fin NCPU) (c : Fin NCONT) (a : Act) : Decidable (s.BeginsTurn n c a) :=
  match a with
  | .sched m => inferInstanceAs (Decidable (m = n ∧ _ ∧ _ ∧ _))
  | .call _ _ | .step _ _ | .yield _ | .sleep _ _ | .wakeup _ => .isFalse id

/-- The turn that a step begins: the entries of the list and the one that is taken. -/
def turnOf (n : Fin NCPU) (c : Fin NCONT) (s : Sys) (a : Act) : Option (Turn PROCESS_COUNT) :=
  if s.BeginsTurn n c a then some ⟨fun j => (s.list c j).isSome, s.chosen n c⟩ else none

/-- The loop takes the first entry from `curLocation` on, if there is one. -/
theorem chosen_first {i : Fin PROCESS_COUNT} (h : s.chosen n c = some i) :
    First (fun j => (s.list c j).isSome) ((s.cpu n).curLocation c) i :=
  ⟨(select_some h).1, (select_some h).2⟩

theorem chosen_none (h : s.chosen n c = none) (j : Fin PROCESS_COUNT) :
    ¬ (s.list c j).isSome := by
  rw [select_none h (ahead_lt _ j)]
  exact nofun

theorem pick_chosen (hn : (s.cpu n).cntNum = c.val) (hnum : (c.val : ℤ) < s.t.containerNum) :
    ∃ x, pick s.t (s.cpu n) = .ok (x, match s.chosen n c with
      | none => { s.cpu n with phase := .scan 0 }
      | some i => { s.cpu n with
          pid := s.t.entryPid 0 (s.list c i)
          curLocation := Function.update (s.cpu n).curLocation c (i + 1)
          phase := .scan 0 }) := by
  unfold pick
  rw [hn, if_pos hnum, index_val]
  have hlist : s.list c = (s.t.container c).process := rfl
  rw [Sys.chosen, hlist]
  cases hsel : select (s.t.container c).process ((s.cpu n).curLocation c) PROCESS_COUNT with
  | none =>
    simp only [hsel, hn]
    exact ⟨_, rfl⟩
  | some i =>
    simp only [hsel, hn]
    exact ⟨_, rfl⟩

theorem sched_step (ht : step s (.sched n) = .ok t) :
    schedStep s.t (s.cpu n) = .ok (t.t, t.cpu n) := by
  obtain ⟨-, h⟩ | ⟨o, ho⟩ := cpu_of_step ht n
  · exact h
  · simp only [step] at ht
    split at ht
    · cases ht
    next x w hx =>
      cases ht
      rw [hx]
      simp

/-- What the first section of a turn leaves on its CPU. -/
theorem begins_turn (hb : s.BeginsTurn n c a) (ht : step s a = .ok t) :
    t.cpu n = match s.chosen n c with
      | none => { s.cpu n with phase := .scan 0 }
      | some i => { s.cpu n with
          pid := s.t.entryPid 0 (s.list c i)
          curLocation := Function.update (s.cpu n).curLocation c (i + 1)
          phase := .scan 0 } := by
  unfold Sys.BeginsTurn at hb
  split at hb
  next m =>
    obtain ⟨rfl, hphase, hn, hnum⟩ := hb
    have h := sched_step ht
    unfold schedStep at h
    split_ifs at h
    rw [hphase] at h
    obtain ⟨x, hx⟩ := pick_chosen hn hnum
    dsimp only at h
    rw [hx] at h
    exact (Prod.mk.inj (Except.ok.inj h)).2.symm
  next => exact absurd hb id

/-- Other steps leave the saved position of the container alone. -/
theorem curLocation_of_step (hb : ¬ s.BeginsTurn n c a) (ht : step s a = .ok t) :
    (t.cpu n).curLocation c = (s.cpu n).curLocation c := by
  obtain ⟨rfl, h⟩ | ⟨o, ho⟩ := cpu_of_step ht n
  · unfold schedStep at h
    split_ifs at h
    split at h
    next hphase =>
      unfold pick at h
      split at h
      next hnum =>
        split at h
        next => cases h
        next d hd =>
          have hd' : (s.cpu n).cntNum = d.val := by
            have := index_eq_ok.mp hd
            omega
          have hdc : c ≠ d := by
            rintro rfl
            refine hb ⟨rfl, hphase, hd', ?_⟩
            rw [← hd']
            exact hnum
          split at h
          next => rw [← (Prod.mk.inj (Except.ok.inj h)).2]
          next i _ =>
            rw [← (Prod.mk.inj (Except.ok.inj h)).2]
            exact Function.update_of_ne hdc ..
      next => rw [← (Prod.mk.inj (Except.ok.inj h)).2]
    next next _ =>
      unfold scan at h
      split at h
      next => rw [← (Prod.mk.inj (Except.ok.inj h)).2]
      next => rw [← (Prod.mk.inj (Except.ok.inj h)).2]
    next =>
      unfold check at h
      dsimp only at h
      split at h
      · split at h
        · cases h
        · split at h
          · rw [← (Prod.mk.inj (Except.ok.inj h)).2]
          · rw [← (Prod.mk.inj (Except.ok.inj h)).2]
      · rw [← (Prod.mk.inj (Except.ok.inj h)).2]
    next =>
      unfold endRound at h
      dsimp only at h
      split at h
      · split at h
        · rw [← (Prod.mk.inj (Except.ok.inj h)).2]
        · cases h
      · rw [← (Prod.mk.inj (Except.ok.inj h)).2]
  · rw [ho]

/-- The turns of a container follow each other as the hand goes round its list. -/
theorem rotates_of_trace {l : List (Turn PROCESS_COUNT)}
    (h : Trace step always (turnOf n c) s l t) :
    Rotates ((s.cpu n).curLocation c) l ∧
      (t.cpu n).curLocation c = hand ((s.cpu n).curLocation c) l := by
  refine Trace.invariant (I := fun l t => Rotates ((s.cpu n).curLocation c) l ∧
    (t.cpu n).curLocation c = hand ((s.cpu n).curLocation c) l) ⟨trivial, rfl⟩ ?_ h
  rintro l t a u ⟨hl, hpos⟩ - hu
  by_cases hb : t.BeginsTurn n c a
  · have hturn : turnOf n c t a = some ⟨fun j => (t.list c j).isSome, t.chosen n c⟩ := if_pos hb
    have hcpu := begins_turn hb hu
    rw [hturn, Option.toList_some, rotates_append, hand_append, ← hpos, hcpu]
    cases hchosen : t.chosen n c with
    | none =>
      refine ⟨⟨hl, ?_⟩, rfl⟩
      simp only [Rotates]
      exact ⟨chosen_none hchosen, trivial⟩
    | some i =>
      refine ⟨⟨hl, ?_⟩, Function.update_self ..⟩
      simp only [Rotates]
      exact ⟨chosen_first hchosen, trivial⟩
  · have hturn : turnOf n c t a = none := if_neg hb
    rw [hturn, Option.toList_none, List.append_nil, curLocation_of_step hb hu]
    exact ⟨hl, hpos⟩

/-- The turns of a container are shared out fairly. Two turns of entry `i` that follow each
other stand in the list as `first` and `last`. -/
structure Fair (turns : List (Turn PROCESS_COUNT)) : Prop where
  atLeastOnce : ∀ before first mid last after i x, turns = before ++ first :: (mid ++ last :: after) →
    first.choice = some i → last.choice = some i → (∀ τ ∈ mid, τ.choice ≠ some i) → x ≠ i →
    (∀ τ ∈ mid ++ [last], τ.occ x) → 1 ≤ (choices mid).count (some x)
  once : ∀ before first mid last after i x, turns = before ++ first :: (mid ++ last :: after) →
    first.choice = some i → last.choice = some i → (∀ τ ∈ mid, τ.choice ≠ some i) → x ≠ i →
    (∀ τ ∈ mid ++ [last], τ.occ x) → (∀ τ ∈ mid, τ.occ i) → (choices mid).count (some x) = 1

theorem fair_of_rotates {pos : ℕ} {turns : List (Turn PROCESS_COUNT)} (h : Rotates pos turns) :
    Fair turns := by
  -- the hand stands behind `i` after the first of the two turns
  have hmid : ∀ before first mid last after (i : Fin PROCESS_COUNT),
      turns = before ++ first :: (mid ++ last :: after) → first.choice = some i →
      Rotates (i.val + 1) (mid ++ [last]) := by
    intro before first mid last after i hturns hfirst
    rw [hturns, rotates_append] at h
    have hrest := h.2
    simp only [Rotates, hfirst] at hrest
    have hsplit : mid ++ last :: after = (mid ++ [last]) ++ after := by
      rw [List.append_assoc, List.singleton_append]
    rw [hsplit, rotates_append] at hrest
    exact hrest.2.1
  refine ⟨?_, ?_⟩
  · intro before first mid last after i x hturns hfirst hlast hi hxi hocc
    exact (hmid before first mid last after i hturns hfirst).one_le_count hxi hlast hi hocc
  · intro before first mid last after i x hturns hfirst hlast hi hxi hocc hocci
    have hrot := hmid before first mid last after i hturns hfirst
    have hx : ahead (i.val + 1) x < ahead (i.val + 1) i := by
      have hlt := ahead_lt (i.val + 1) x
      have hne : ahead (i.val + 1) x ≠ ahead (i.val + 1) i := fun heq => hxi (ahead_inj heq)
      rw [ahead_succ_self] at hne ⊢
      omega
    refine le_antisymm (hrot.count_le_one hxi hx hi hocci fun τ hτ => hocc τ ?_)
      (hrot.one_le_count hxi hlast hi hocc)
    exact List.mem_append_left _ hτ

/-- Whatever is listed and delisted in a run, the turns of a container on one CPU are fair; a
turn takes the first entry from `curLocation` on if the list has one, and goes on behind it. -/
theorem turns_fair {l : List (Turn PROCESS_COUNT)} (h : Trace step always (turnOf n c) s l t) :
    Fair l ∧ ∀ u a v τ, turnOf n c u a = some τ → step u a = .ok v → (∃ j, τ.occ j) →
      ∃ i, τ.choice = some i ∧ First τ.occ ((u.cpu n).curLocation c) i ∧
        (v.cpu n).curLocation c = i.val + 1 ∧ (v.cpu n).pid = u.t.entryPid 0 (u.list c i) := by
  refine ⟨fair_of_rotates (rotates_of_trace h).1, ?_⟩
  intro u a v τ hturn hv hocc
  unfold turnOf at hturn
  split_ifs at hturn with hb
  obtain rfl := Option.some.inj hturn
  have hcpu := begins_turn hb hv
  cases hchosen : u.chosen n c with
  | none =>
    obtain ⟨j, hj⟩ := hocc
    exact absurd hj (chosen_none hchosen j)
  | some i =>
    rw [hchosen] at hcpu
    refine ⟨i, rfl, chosen_first hchosen, ?_, ?_⟩
    · rw [hcpu]
      exact Function.update_self ..
    · rw [hcpu]

/-- Two processes of container 1 take turns. -/
theorem turns_fair_two : ∃ l, choices l = [some 0, some 1, some 0] ∧ Fair l := by
  obtain ⟨l, t, hl, ht⟩ :=
    (Trace.nil : Trace step always (turnOf 0 1) firstBoot [] firstBoot).of_watch
      (fun l _ => decide (choices l = [some 0, some 1, some 0]))
      (joinRun ++ .call 2 .fork :: sections 2 6 ++ .yield 2 :: turns 6 ++ sections 0 1 ++
        .call 0 .wait :: sections 0 1 ++ turns 4 ++ .yield 3 :: turns 8) (by decide +kernel)
  exact ⟨l, of_decide_eq_true ht, (turns_fair hl).1⟩

end Xv6Container.Containers
