import Xv6Container.Lib.Reach

/-! Monitors: data protected by a spin lock `lk`, and processes that sleep on channels until the
data have changed. A process that is to sleep takes a second lock, `ptable`, before it lets go of
`lk`, and has its state changed under that lock alone; a wakeup changes the states of all sleepers
on a channel under `ptable`. Where whoever ends a condition that is waited for wakes up its channel
before it releases `lk`, nobody is asleep for nothing when `lk` is free. -/

namespace Xv6Container.Lib.Monitor

variable {ι σ κ γ ρ : Type*}

/-- How a section ends: the process sleeps on a channel and goes on from `l` with the lock held
again, or its call returns. -/
inductive After (κ γ ρ : Type*) where
  | sleep (c : κ) (l : γ)
  | back (r : ρ)
  deriving DecidableEq

/-- What a section does while it holds the lock: it leaves data behind, calls `wakeup` on at most
one channel, and ends. -/
structure Section (σ κ γ ρ : Type*) where
  data : σ
  wake : Option κ
  after : After κ γ ρ

/-- Where a process is. It holds `lk` while it is `waking` or `ending`, both locks while it is
`handing` over, and `ptable` alone when it is `committed` to sleep. -/
inductive Pc (κ γ ρ : Type*) where
  | out
  | entering (l : γ)
  | waking (c : κ) (e : After κ γ ρ)
  | ending (e : After κ γ ρ)
  | handing (c : κ) (l : γ)
  | committed (c : κ) (l : γ)
  | asleep (c : κ) (l : γ)
  | woken (l : γ)
  deriving DecidableEq

inductive Event (γ ρ : Type*) where
  | called (l : γ)
  | returned (r : ρ)

/-- `log p` are the calls of `p` and what they have returned, the latest first. -/
structure State (ι σ κ γ ρ : Type*) where
  data : σ
  lk : Option ι
  ptable : Option ι
  pc : ι → Pc κ γ ρ
  killed : ι → Bool
  log : ι → List (Event γ ρ)

inductive Act (ι γ : Type*) where
  | call (p : ι) (l : γ)
  | enter (p : ι)
  | wakeup (p : ι)
  | leave (p : ι)
  | hand (p : ι)
  | commit (p : ι)
  | doze (p : ι)
  | resume (p : ι)
  | kill (p : ι)

/-- Why a step does not take place: it is not enabled, or the section cannot be run. -/
inductive Stop where
  | disabled
  | stuck
  deriving DecidableEq, Repr

/-- Where the process is after the work of a section. -/
def Section.pc (e : Section σ κ γ ρ) : Pc κ γ ρ :=
  match e.wake with
  | some c => .waking c e.after
  | none => .ending e.after

namespace Pc

/-- `wakeup1` as one process sees it: a sleeper on the channel becomes runnable. -/
def wake [DecidableEq κ] (c : κ) : Pc κ γ ρ → Pc κ γ ρ
  | asleep d l => if d = c then woken l else asleep d l
  | x => x

/-- `kill` makes any sleeper runnable. -/
def rouse : Pc κ γ ρ → Pc κ γ ρ
  | asleep _ l => woken l
  | x => x

/-- Whether the process holds `lk`. -/
def locks : Pc κ γ ρ → Bool
  | waking .. | ending .. | handing .. => true
  | _ => false

/-- Whether the process holds `ptable`. -/
def tables : Pc κ γ ρ → Bool
  | handing .. | committed .. => true
  | _ => false

/-- The channel a process sleeps on or is about to sleep on, and where it goes on. -/
def target : Pc κ γ ρ → Option (κ × γ)
  | waking _ (.sleep c l) | ending (.sleep c l) | handing c l | committed c l | asleep c l =>
    some (c, l)
  | _ => none

end Pc

variable [DecidableEq ι] [DecidableEq κ]

omit [DecidableEq κ] in
def State.set (s : State ι σ κ γ ρ) (p : ι) (x : Pc κ γ ρ) : State ι σ κ γ ρ :=
  { s with pc := Function.update s.pc p x }

/-- `body killed p d l` is the section that `p` runs from `l` on the data `d`. -/
def step (body : Bool → ι → σ → γ → Option (Section σ κ γ ρ)) (s : State ι σ κ γ ρ) :
    Act ι γ → Except Stop (State ι σ κ γ ρ)
  | .call p l =>
    match s.pc p with
    | .out => .ok { s.set p (.entering l) with log := Function.update s.log p (.called l :: s.log p) }
    | _ => .error .disabled
  | .enter p =>
    match s.pc p, s.lk with
    | .entering l, none =>
      match body (s.killed p) p s.data l with
      | some e => .ok { s.set p e.pc with data := e.data, lk := some p }
      | none => .error .stuck
    | _, _ => .error .disabled
  | .wakeup p =>
    match s.pc p, s.ptable with
    | .waking c e, none => .ok (({ s with pc := fun q => (s.pc q).wake c }).set p (.ending e))
    | _, _ => .error .disabled
  | .leave p =>
    match s.pc p with
    | .ending (.back r) => .ok
        { s.set p .out with lk := none, log := Function.update s.log p (.returned r :: s.log p) }
    | _ => .error .disabled
  | .hand p =>
    match s.pc p, s.ptable with
    | .ending (.sleep c l), none => .ok { s.set p (.handing c l) with ptable := some p }
    | _, _ => .error .disabled
  | .commit p =>
    match s.pc p with
    | .handing c l => .ok { s.set p (.committed c l) with lk := none }
    | _ => .error .disabled
  | .doze p =>
    match s.pc p with
    | .committed c l => .ok { s.set p (.asleep c l) with ptable := none }
    | _ => .error .disabled
  | .resume p =>
    match s.pc p, s.ptable with
    | .woken l, none => .ok (s.set p (.entering l))
    | _, _ => .error .disabled
  | .kill p =>
    match s.ptable with
    | none => .ok { s.set p (s.pc p).rouse with killed := Function.update s.killed p true }
    | some _ => .error .disabled

/-- Both locks are free and nobody has called anything. -/
structure Fresh (s : State ι σ κ γ ρ) : Prop where
  lk : s.lk = none
  ptable : s.ptable = none
  pc : ∀ p, s.pc p = .out
  log : ∀ p, s.log p = []

/-! ### Steps -/

variable {body : Bool → ι → σ → γ → Option (Section σ κ γ ρ)} {s t : State ι σ κ γ ρ} {a : Act ι γ}

/-- What a step can do. -/
inductive Move (body : Bool → ι → σ → γ → Option (Section σ κ γ ρ)) (s : State ι σ κ γ ρ) :
    Act ι γ → State ι σ κ γ ρ → Prop
  | call {p : ι} {l : γ} (hp : s.pc p = .out) : Move body s (.call p l)
      { s.set p (.entering l) with log := Function.update s.log p (.called l :: s.log p) }
  | enter {p : ι} {l : γ} {e : Section σ κ γ ρ} (hp : s.pc p = .entering l) (hlk : s.lk = none)
      (he : body (s.killed p) p s.data l = some e) :
      Move body s (.enter p) { s.set p e.pc with data := e.data, lk := some p }
  | wakeup {p : ι} {c : κ} {e : After κ γ ρ} (hp : s.pc p = .waking c e) (ht : s.ptable = none) :
      Move body s (.wakeup p) (({ s with pc := fun q => (s.pc q).wake c }).set p (.ending e))
  | leave {p : ι} {r : ρ} (hp : s.pc p = .ending (.back r)) : Move body s (.leave p)
      { s.set p .out with lk := none, log := Function.update s.log p (.returned r :: s.log p) }
  | hand {p : ι} {c : κ} {l : γ} (hp : s.pc p = .ending (.sleep c l)) (ht : s.ptable = none) :
      Move body s (.hand p) { s.set p (.handing c l) with ptable := some p }
  | commit {p : ι} {c : κ} {l : γ} (hp : s.pc p = .handing c l) :
      Move body s (.commit p) { s.set p (.committed c l) with lk := none }
  | doze {p : ι} {c : κ} {l : γ} (hp : s.pc p = .committed c l) :
      Move body s (.doze p) { s.set p (.asleep c l) with ptable := none }
  | resume {p : ι} {l : γ} (hp : s.pc p = .woken l) (ht : s.ptable = none) :
      Move body s (.resume p) (s.set p (.entering l))
  | kill {p : ι} (ht : s.ptable = none) : Move body s (.kill p)
      { s.set p (s.pc p).rouse with killed := Function.update s.killed p true }

theorem move_of_step (h : step body s a = .ok t) : Move body s a t := by
  cases a <;> simp only [step] at h
  case call p l =>
    split at h
    next hp => cases h; exact .call hp
    next => cases h
  case enter p =>
    split at h
    next l hp hlk =>
      split at h
      next e he => cases h; exact .enter hp hlk he
      next => cases h
    next => cases h
  case wakeup p =>
    split at h
    next c e hp ht => cases h; exact .wakeup hp ht
    next => cases h
  case leave p =>
    split at h
    next r hp => cases h; exact .leave hp
    next => cases h
  case hand p =>
    split at h
    next c l hp ht => cases h; exact .hand hp ht
    next => cases h
  case commit p =>
    split at h
    next c l hp => cases h; exact .commit hp
    next => cases h
  case doze p =>
    split at h
    next c l hp => cases h; exact .doze hp
    next => cases h
  case resume p =>
    split at h
    next l hp ht => cases h; exact .resume hp ht
    next => cases h
  case kill p =>
    split at h
    next ht => cases h; exact .kill ht
    next => cases h

/-! ### Locks -/

omit [DecidableEq κ] in
@[simp] theorem set_pc_self (p : ι) (x : Pc κ γ ρ) : (s.set p x).pc p = x :=
  Function.update_self ..

omit [DecidableEq κ] in
@[simp] theorem set_pc_ne {p q : ι} (x : Pc κ γ ρ) (h : q ≠ p) : (s.set p x).pc q = s.pc q :=
  Function.update_of_ne h ..

namespace Pc

@[simp] theorem locks_wake (c : κ) (x : Pc κ γ ρ) : (x.wake c).locks = x.locks := by
  cases x <;> simp only [wake]
  split <;> rfl

@[simp] theorem tables_wake (c : κ) (x : Pc κ γ ρ) : (x.wake c).tables = x.tables := by
  cases x <;> simp only [wake]
  split <;> rfl

omit [DecidableEq κ] in
@[simp] theorem locks_rouse (x : Pc κ γ ρ) : x.rouse.locks = x.locks := by
  cases x <;> rfl

omit [DecidableEq κ] in
@[simp] theorem tables_rouse (x : Pc κ γ ρ) : x.rouse.tables = x.tables := by
  cases x <;> rfl

end Pc

omit [DecidableEq ι] [DecidableEq κ] in
@[simp] theorem Section.locks_pc (e : Section σ κ γ ρ) : e.pc.locks = true := by
  unfold Section.pc
  split <;> rfl

omit [DecidableEq ι] [DecidableEq κ] in
@[simp] theorem Section.tables_pc (e : Section σ κ γ ρ) : e.pc.tables = false := by
  unfold Section.pc
  split <;> rfl

/-- Each lock is held by the process that is at a place where it holds the lock. -/
structure Locked (s : State ι σ κ γ ρ) : Prop where
  lk : ∀ p, (s.pc p).locks = true ↔ s.lk = some p
  ptable : ∀ p, (s.pc p).tables = true ↔ s.ptable = some p

omit [DecidableEq ι] [DecidableEq κ] in
/-- One process comes to another place, and the lock is afterwards held as that place says. -/
theorem holds_update {f g : ι → Bool} {h k : Option ι} (p : ι) (hf : ∀ q, f q = true ↔ h = some q)
    (hne : ∀ q, q ≠ p → g q = f q)
    (hp : g p = f p ∧ k = h ∨ g p = true ∧ h = none ∧ k = some p ∨
      g p = false ∧ h = some p ∧ k = none) (q : ι) : g q = true ↔ k = some q := by
  by_cases hq : q = p
  · subst hq
    rcases hp with ⟨hg, rfl⟩ | ⟨hg, -, rfl⟩ | ⟨hg, -, rfl⟩
    · rw [hg, hf]
    · simp [hg]
    · simp [hg]
  · have hpq : p ≠ q := fun h => hq h.symm
    rw [hne q hq, hf]
    rcases hp with ⟨-, rfl⟩ | ⟨-, rfl, rfl⟩ | ⟨-, rfl, rfl⟩
    · rfl
    · simp [hpq]
    · simp [hpq]

omit [DecidableEq ι] [DecidableEq κ] in
/-- One process goes from place `x` to place `y`. -/
theorem Locked.set (hI : Locked s) (p : ι) {x y : Pc κ γ ρ} (hx : s.pc p = x) (hy : t.pc p = y)
    (hne : ∀ q, q ≠ p → (t.pc q).locks = (s.pc q).locks ∧ (t.pc q).tables = (s.pc q).tables)
    (hlk : y.locks = x.locks ∧ t.lk = s.lk ∨ y.locks = true ∧ s.lk = none ∧ t.lk = some p ∨
      y.locks = false ∧ s.lk = some p ∧ t.lk = none)
    (ht : y.tables = x.tables ∧ t.ptable = s.ptable ∨
      y.tables = true ∧ s.ptable = none ∧ t.ptable = some p ∨
      y.tables = false ∧ s.ptable = some p ∧ t.ptable = none) : Locked t := by
  subst hx hy
  exact ⟨holds_update p hI.lk (fun q hq => (hne q hq).1) hlk,
    holds_update p hI.ptable (fun q hq => (hne q hq).2) ht⟩

theorem Locked.step (hI : Locked s) (h : Move body s a t) : Locked t := by
  have hself (p : ι) (x : Pc κ γ ρ) := set_pc_self (s := s) p x
  have hne (p : ι) (x : Pc κ γ ρ) (q : ι) (hq : q ≠ p) :
      ((s.set p x).pc q).locks = (s.pc q).locks ∧ ((s.set p x).pc q).tables = (s.pc q).tables := by
    rw [set_pc_ne x hq]
    exact ⟨rfl, rfl⟩
  cases h with
  | @call p l hp => exact hI.set p hp (hself ..) (hne p _) (.inl ⟨rfl, rfl⟩) (.inl ⟨rfl, rfl⟩)
  | @enter p l e hp hlk he =>
    exact hI.set p hp (hself ..) (hne p _) (.inr (.inl ⟨e.locks_pc, hlk, rfl⟩))
      (.inl ⟨e.tables_pc, rfl⟩)
  | @wakeup p c e hp ht =>
    refine hI.set p hp (set_pc_self ..) (fun q hq => ?_) (.inl ⟨rfl, rfl⟩) (.inl ⟨rfl, rfl⟩)
    rw [set_pc_ne _ hq]
    exact ⟨Pc.locks_wake c _, Pc.tables_wake c _⟩
  | @leave p r hp =>
    have hlk := (hI.lk p).1 (by rw [hp]; rfl)
    exact hI.set p hp (hself ..) (hne p _) (.inr (.inr ⟨rfl, hlk, rfl⟩)) (.inl ⟨rfl, rfl⟩)
  | @hand p c l hp ht =>
    exact hI.set p hp (hself ..) (hne p _) (.inl ⟨rfl, rfl⟩) (.inr (.inl ⟨rfl, ht, rfl⟩))
  | @commit p c l hp =>
    have hlk := (hI.lk p).1 (by rw [hp]; rfl)
    exact hI.set p hp (hself ..) (hne p _) (.inr (.inr ⟨rfl, hlk, rfl⟩)) (.inl ⟨rfl, rfl⟩)
  | @doze p c l hp =>
    have ht := (hI.ptable p).1 (by rw [hp]; rfl)
    exact hI.set p hp (hself ..) (hne p _) (.inl ⟨rfl, rfl⟩) (.inr (.inr ⟨rfl, ht, rfl⟩))
  | @resume p l hp ht =>
    exact hI.set p hp (hself ..) (hne p _) (.inl ⟨rfl, rfl⟩) (.inl ⟨rfl, rfl⟩)
  | @kill p ht =>
    exact hI.set p rfl (hself ..) (hne p _) (.inl ⟨Pc.locks_rouse _, rfl⟩)
      (.inl ⟨Pc.tables_rouse _, rfl⟩)

omit [DecidableEq ι] [DecidableEq κ] in
theorem Fresh.locked (h : Fresh s) : Locked s := by
  refine ⟨fun p => ?_, fun p => ?_⟩
  · rw [h.pc, h.lk]
    exact ⟨nofun, nofun⟩
  · rw [h.pc, h.ptable]
    exact ⟨nofun, nofun⟩

/-! ### Sleepers -/

namespace Pc

omit [DecidableEq ι] in
/-- A wakeup leaves a process asleep only if it sleeps on another channel. -/
theorem target_wake {c d : κ} {l : γ} {x : Pc κ γ ρ} (h : (x.wake c).target = some (d, l)) :
    x.target = some (d, l) ∧ (x.locks = true ∨ x.tables = true ∨ d ≠ c) := by
  cases x with
  | asleep d' l' =>
    simp only [wake] at h
    split_ifs at h with hd
    · cases h
    · cases h
      exact ⟨rfl, .inr (.inr hd)⟩
  | waking c' e => exact ⟨h, .inl rfl⟩
  | ending e => exact ⟨h, .inl rfl⟩
  | handing c' l' => exact ⟨h, .inl rfl⟩
  | committed c' l' => exact ⟨h, .inr (.inl rfl)⟩
  | _ => cases h

omit [DecidableEq ι] [DecidableEq κ] in
theorem target_rouse {d : κ} {l : γ} {x : Pc κ γ ρ} (h : x.rouse.target = some (d, l)) :
    x.target = some (d, l) := by
  cases x <;> first | exact h | cases h

end Pc

omit [DecidableEq ι] [DecidableEq κ] in
theorem Section.target_pc (e : Section σ κ γ ρ) {c : κ} {l : γ} :
    e.pc.target = some (c, l) ↔ e.after = .sleep c l := by
  obtain ⟨d, w, a⟩ := e
  cases w <;> cases a <;> simp [Section.pc, Pc.target]

/-- `wait c l d`: a call that goes on from `l` has to sleep on `c` while the data are `d`. Whoever
sleeps has to, unless the process that holds the lock is yet to wake it up. -/
structure Sound (wait : κ → γ → σ → Prop) (s : State ι σ κ γ ρ) : Prop extends Locked s where
  own : ∀ p c l, (s.pc p).locks = true → (s.pc p).target = some (c, l) → wait c l s.data
  waits : ∀ p c l, (s.pc p).locks = false → (s.pc p).target = some (c, l) →
    wait c l s.data ∨ ∃ q e, s.pc q = .waking c e

variable {wait : κ → γ → σ → Prop}

/-- The section that a step runs ends no condition that is waited for without a wakeup. -/
def Careful (wait : κ → γ → σ → Prop) (body : Bool → ι → σ → γ → Option (Section σ κ γ ρ))
    (s : State ι σ κ γ ρ) (a : Act ι γ) : Prop :=
  ∀ p l e, a = .enter p → s.pc p = .entering l → body (s.killed p) p s.data l = some e →
    ∀ q c m, (s.pc q).target = some (c, m) → wait c m s.data → wait c m e.data ∨ e.wake = some c

omit [DecidableEq ι] [DecidableEq κ] in
theorem Locked.eq {p q : ι} (hI : Locked s) (hp : (s.pc p).locks = true)
    (hq : (s.pc q).locks = true) : p = q := by
  have hp := (hI.lk p).1 hp
  rw [(hI.lk q).1 hq, Option.some_inj] at hp
  exact hp.symm

omit [DecidableEq κ] in
/-- A process that is about to wake up others stays there while another one moves. -/
theorem waking_set {p : ι} {x : Pc κ γ ρ} {c : κ} (hp : ∀ e, s.pc p ≠ .waking c e)
    (h : ∃ q e, s.pc q = .waking c e) : ∃ q e, (s.set p x).pc q = .waking c e := by
  obtain ⟨q, e, hq⟩ := h
  refine ⟨q, e, ?_⟩
  rw [set_pc_ne x, hq]
  rintro rfl
  exact hp e hq

omit [DecidableEq κ] in
/-- One process goes from place `x` to place `y`, and the data stay: it is enough to look at that
process, if it does not call `wakeup`. -/
theorem Sound.set (hI : Sound wait s) (hl : Locked t) (p : ι) {x y : Pc κ γ ρ} (hx : s.pc p = x)
    (hy : t.pc = (s.set p y).pc) (hd : t.data = s.data) (hwake : ∀ c e, x ≠ .waking c e)
    (hown : ∀ c l, y.target = some (c, l) →
      x.target = some (c, l) ∧ (y.locks = true → x.locks = true)) : Sound wait t := by
  subst hx
  have hother (c : κ) (l : γ) (hw : wait c l s.data ∨ ∃ q e, s.pc q = .waking c e) :
      wait c l t.data ∨ ∃ q e, t.pc q = .waking c e := by
    rw [hd, hy]
    exact hw.imp_right (waking_set (hwake c))
  have hbefore (c : κ) (l : γ) (h : (s.pc p).target = some (c, l)) :
      wait c l s.data ∨ ∃ q e, s.pc q = .waking c e := by
    cases hlk : (s.pc p).locks with
    | true => exact .inl (hI.own p c l hlk h)
    | false => exact hI.waits p c l hlk h
  refine ⟨hl, fun q c l hlk ht => ?_, fun q c l hlk ht => ?_⟩
  · rw [hy] at hlk ht
    rw [hd]
    by_cases hq : q = p
    · subst hq
      rw [set_pc_self] at hlk ht
      exact hI.own q c l ((hown c l ht).2 hlk) (hown c l ht).1
    · rw [set_pc_ne _ hq] at hlk ht
      exact hI.own q c l hlk ht
  · rw [hy] at hlk ht
    by_cases hq : q = p
    · subst hq
      rw [set_pc_self] at ht
      exact hother c l (hbefore c l (hown c l ht).1)
    · rw [set_pc_ne _ hq] at hlk ht
      exact hother c l (hI.waits q c l hlk ht)

theorem Sound.step (hI : Sound wait s)
    (hsleep : ∀ k p d l e c m, body k p d l = some e → e.after = .sleep c m → wait c m e.data)
    (hc : Careful wait body s a) (h : Move body s a t) : Sound wait t := by
  have hl := hI.toLocked.step h
  cases h with
  | @call p l hp => exact hI.set hl p hp rfl rfl nofun nofun
  | @enter p l e hp hlk he =>
    have hfree (q : ι) : (s.pc q).locks = false := by
      rw [← Bool.not_eq_true, hI.lk, hlk]
      nofun
    refine ⟨hl, fun q c m hq ht => ?_, fun q c m hq ht => ?_⟩
    · by_cases hqp : q = p
      · subst hqp
        rw [set_pc_self, e.target_pc] at ht
        exact hsleep _ _ _ _ _ _ _ he ht
      · rw [set_pc_ne _ hqp, hfree] at hq
        cases hq
    · by_cases hqp : q = p
      · subst hqp
        rw [set_pc_self, e.locks_pc] at hq
        cases hq
      · rw [set_pc_ne _ hqp] at hq ht
        have hw : wait c m s.data := by
          rcases hI.waits q c m hq ht with hw | ⟨r, f, hr⟩
          · exact hw
          · have := hfree r
            rw [hr] at this
            cases this
        refine (hc p l e rfl hp he q c m ht hw).imp_right fun hwake => ⟨p, e.after, ?_⟩
        rw [set_pc_self, Section.pc, hwake]
  | @wakeup p c e hp ht =>
    have hplk : (s.pc p).locks = true := by rw [hp]; rfl
    refine ⟨hl, fun q d m hq htar => ?_, fun q d m hq htar => ?_⟩
    · by_cases hqp : q = p
      · subst hqp
        rw [set_pc_self] at htar
        refine hI.own q d m hplk ?_
        rw [hp, ← htar]
        cases e <;> rfl
      · rw [set_pc_ne _ hqp, Pc.locks_wake] at hq
        exact absurd (hI.eq hq hplk) hqp
    · by_cases hqp : q = p
      · subst hqp
        rw [set_pc_self] at hq
        cases hq
      · rw [set_pc_ne _ hqp] at hq htar
        rw [Pc.locks_wake] at hq
        obtain ⟨htar, hd⟩ := Pc.target_wake htar
        have htables : (s.pc q).tables = false := by
          rw [← Bool.not_eq_true, hI.ptable, ht]
          nofun
        have hne : d ≠ c := by simpa [hq, htables] using hd
        rcases hI.waits q d m hq htar with hw | ⟨r, f, hr⟩
        · exact .inl hw
        · have := hI.eq (p := r) (q := p) (by rw [hr]; rfl) hplk
          subst this
          rw [hp] at hr
          cases hr
          exact absurd rfl hne
  | @leave p r hp => exact hI.set hl p hp rfl rfl nofun nofun
  | @hand p c l hp ht =>
    exact hI.set hl p hp rfl rfl nofun fun _ _ h => ⟨h, fun _ => rfl⟩
  | @commit p c l hp => exact hI.set hl p hp rfl rfl nofun fun _ _ h => ⟨h, nofun⟩
  | @doze p c l hp => exact hI.set hl p hp rfl rfl nofun fun _ _ h => ⟨h, nofun⟩
  | @resume p l hp ht => exact hI.set hl p hp rfl rfl nofun nofun
  | @kill p ht =>
    by_cases hp : (s.pc p).rouse = s.pc p
    · have hpc : (s.set p (s.pc p).rouse).pc = s.pc := by
        rw [hp]
        exact Function.update_eq_self ..
      refine ⟨hl, fun q => ?_, fun q => ?_⟩
      · simp only [hpc]
        exact hI.own q
      · simp only [hpc]
        exact hI.waits q
    · refine hI.set hl p rfl rfl rfl (fun c e hw => ?_) fun c l h => ?_
      · rw [hw] at hp
        exact hp rfl
      · exact ⟨Pc.target_rouse h, fun hlk => by rwa [Pc.locks_rouse] at hlk⟩

omit [DecidableEq ι] [DecidableEq κ] in
theorem Fresh.sound (h : Fresh s) : Sound wait s := by
  refine ⟨h.locked, fun p c l hlk => ?_, fun p c l hlk ht => ?_⟩
  · rw [h.pc] at hlk
    cases hlk
  · rw [h.pc] at ht
    cases ht

/-- With the lock free, a process that is asleep has to be. -/
theorem waits_of_free {guard : State ι σ κ γ ρ → Act ι γ → Prop} {init : State ι σ κ γ ρ → Prop}
    (hinit : ∀ s, init s → Fresh s)
    (hsleep : ∀ k p d l e c m, body k p d l = some e → e.after = .sleep c m → wait c m e.data)
    (hguard : ∀ s a, Sound wait s → guard s a → Careful wait body s a)
    (hs : Reach (step body) guard init s) (hfree : s.lk = none) {p : ι} {c : κ} {l : γ}
    (hp : s.pc p = .asleep c l) : wait c l s.data := by
  have hI : Sound wait s := by
    refine hs.invariant (fun s h => (hinit s h).sound) fun s a t hI hg h => ?_
    exact hI.step hsleep (hguard s a hI hg) (move_of_step h)
  rcases hI.waits p c l (by rw [hp]; rfl) (by rw [hp]; rfl) with hw | ⟨q, e, hq⟩
  · exact hw
  · have := (hI.lk q).1 (by rw [hq]; rfl)
    rw [hfree] at this
    cases this

/-! ### Where the calls are -/

/-- What is left of a call: it goes on from `l`, or it returns `r`. -/
def After.place : After κ γ ρ → γ ⊕ ρ
  | .sleep _ l => .inl l
  | .back r => .inr r

/-- What is left of the call of a process, if it has called. -/
def Pc.place : Pc κ γ ρ → Option (γ ⊕ ρ)
  | out => none
  | entering l | woken l | handing _ l | committed _ l | asleep _ l => some (.inl l)
  | waking _ e | ending e => some e.place

def State.place (s : State ι σ κ γ ρ) (p : ι) : Option (γ ⊕ ρ) := (s.pc p).place

omit [DecidableEq ι] in
@[simp] theorem Pc.place_wake (c : κ) (x : Pc κ γ ρ) : (x.wake c).place = x.place := by
  cases x <;> simp only [wake]
  split <;> rfl

omit [DecidableEq ι] [DecidableEq κ] in
@[simp] theorem Pc.place_rouse (x : Pc κ γ ρ) : x.rouse.place = x.place := by
  cases x <;> rfl

omit [DecidableEq ι] [DecidableEq κ] in
@[simp] theorem Section.place_pc (e : Section σ κ γ ρ) : e.pc.place = some e.after.place := by
  unfold Section.pc
  split <;> rfl

omit [DecidableEq ι] [DecidableEq κ] in
theorem Pc.place_of_target {x : Pc κ γ ρ} {c : κ} {l : γ} (h : x.target = some (c, l)) :
    x.place = some (.inl l) := by
  cases x with
  | waking d e => cases e <;> cases h; rfl
  | ending e => cases e <;> cases h; rfl
  | handing | committed | asleep => cases h; rfl
  | out | entering | woken => cases h

/-- What a step does to the calls: a call begins, a section of it runs, it returns, or it stays where
it is. -/
inductive Turn (body : Bool → ι → σ → γ → Option (Section σ κ γ ρ)) (s : State ι σ κ γ ρ) :
    Act ι γ → State ι σ κ γ ρ → Prop
  | call {t : State ι σ κ γ ρ} {p : ι} {l : γ} (hp : s.place p = none)
      (hplace : t.place = Function.update s.place p (some (.inl l))) (hdata : t.data = s.data)
      (hlog : t.log = Function.update s.log p (.called l :: s.log p)) : Turn body s (.call p l) t
  | enter {t : State ι σ κ γ ρ} {p : ι} {l : γ} {e : Section σ κ γ ρ} (hp : s.pc p = .entering l)
      (he : body (s.killed p) p s.data l = some e)
      (hplace : t.place = Function.update s.place p (some e.after.place)) (hdata : t.data = e.data)
      (hlog : t.log = s.log) : Turn body s (.enter p) t
  | leave {t : State ι σ κ γ ρ} {p : ι} {r : ρ} (hp : s.place p = some (.inr r))
      (hplace : t.place = Function.update s.place p none) (hdata : t.data = s.data)
      (hlog : t.log = Function.update s.log p (.returned r :: s.log p)) : Turn body s (.leave p) t
  | stay {t : State ι σ κ γ ρ} {a : Act ι γ} (hcall : ∀ p l, a ≠ .call p l) (henter : ∀ p, a ≠ .enter p)
      (hleave : ∀ p, a ≠ .leave p) (hplace : t.place = s.place) (hdata : t.data = s.data)
      (hlog : t.log = s.log) : Turn body s a t

omit [DecidableEq κ] in
/-- A process whose call stays where it is may stand elsewhere. -/
theorem place_set {p : ι} {x : Pc κ γ ρ} (hx : x.place = s.place p) : (s.set p x).place = s.place := by
  funext q
  by_cases hq : q = p
  · subst hq
    rw [State.place, set_pc_self, hx]
  · rw [State.place, set_pc_ne _ hq, State.place]

omit [DecidableEq κ] in
theorem place_set_update (p : ι) (x : Pc κ γ ρ) :
    (s.set p x).place = Function.update s.place p x.place := by
  funext q
  by_cases hq : q = p
  · subst hq
    rw [State.place, set_pc_self, Function.update_self]
  · rw [State.place, set_pc_ne _ hq, Function.update_of_ne hq, State.place]

theorem turn_of_move (h : Move body s a t) : Turn body s a t := by
  cases h with
  | @call p l hp =>
    exact .call (by rw [State.place, hp]; rfl) (place_set_update p _) rfl rfl
  | @enter p l e hp hlk he =>
    refine .enter hp he ?_ rfl rfl
    rw [← e.place_pc]
    exact place_set_update p _
  | @wakeup p c e hp ht =>
    have hwake : ({ s with pc := fun q => (s.pc q).wake c } : State ι σ κ γ ρ).place = s.place := by
      funext q
      exact Pc.place_wake c _
    refine .stay (by rintro _ _ ⟨⟩) (by rintro _ ⟨⟩) (by rintro _ ⟨⟩)
      ((place_set ?_).trans hwake) rfl rfl
    rw [hwake, State.place, hp]
    rfl
  | @leave p r hp => exact .leave (by rw [State.place, hp]; rfl) (place_set_update p _) rfl rfl
  | @hand p c l hp ht =>
    exact .stay (by rintro _ _ ⟨⟩) (by rintro _ ⟨⟩) (by rintro _ ⟨⟩)
      (place_set (by rw [State.place, hp]; rfl)) rfl rfl
  | @commit p c l hp =>
    exact .stay (by rintro _ _ ⟨⟩) (by rintro _ ⟨⟩) (by rintro _ ⟨⟩)
      (place_set (by rw [State.place, hp]; rfl)) rfl rfl
  | @doze p c l hp =>
    exact .stay (by rintro _ _ ⟨⟩) (by rintro _ ⟨⟩) (by rintro _ ⟨⟩)
      (place_set (by rw [State.place, hp]; rfl)) rfl rfl
  | @resume p l hp ht =>
    exact .stay (by rintro _ _ ⟨⟩) (by rintro _ ⟨⟩) (by rintro _ ⟨⟩)
      (place_set (by rw [State.place, hp]; rfl)) rfl rfl
  | @kill p ht =>
    exact .stay (by rintro _ _ ⟨⟩) (by rintro _ ⟨⟩) (by rintro _ ⟨⟩)
      (place_set (Pc.place_rouse _)) rfl rfl

omit [DecidableEq ι] [DecidableEq κ] in
theorem Fresh.place (h : Fresh s) (p : ι) : s.place p = none := by
  rw [State.place, h.pc]
  rfl

end Xv6Container.Lib.Monitor
