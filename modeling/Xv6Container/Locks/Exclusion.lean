import Mathlib.Data.List.Nodup
import Mathlib.Tactic.ByCases
import Xv6Container.Locks.Spinlock

/-! Spin locks, one access at a time: `pushcli` and `popcli` are matched, `holding` is right, and a lock
is held by one CPU at most. `Fits` is about a CPU and what it runs, `Held` about the locks and all CPUs,
and `access_spec` says that an access keeps both and does not panic. -/

namespace Xv6Container.Locks.Spin

open Lib
open Containers (ProcState)

universe u

variable {κ π Λ : Type u} {ptable l : Λ} {c d : κ} {x x' : Cpu κ π} {f f' : Frame Λ}
  {lk lk' : Λ → Spinlock κ}

/-! ### One CPU -/

/-- How often `pushcli` has been called beyond the locks that are held. -/
def Pc.extra : Pc Λ → ℤ
  | .xchg _ | .record _ | .locked .acquire _ | .unlock _ | .popcli => 1
  | .cpu .acquire _ => 2
  | .cpu .release _ | .cpu .sched _ => 1
  | _ => 0

/-- Where interrupts may be on. -/
def Pc.mayOpen : Pc Λ → Bool
  | .running | .cli .. => true
  | _ => false

/-- A process has set its state and is on its way to `swtch`. -/
def Pc.leaving : Pc Λ → Bool
  | .locked .sched _ | .cpu .sched _ | .tests | .swtch _ => true
  | _ => false

/-- A thread comes back from `swtch`. -/
def Pc.comesBack : Pc Λ → Bool
  | .resume _ | .forkret => true
  | _ => false

/-- The lock that a thread is at is one that it holds or not. -/
def Frame.Placed (ptable : Λ) (f : Frame Λ) : Prop :=
  match f.pc with
  | .cli l _ | .pushcli l _ | .xchg l | .record l | .locked .acquire l | .cpu .acquire l | .unlock l =>
    l ∉ f.held
  | .locked .release l | .cpu .release l | .clear l => l ∈ f.held
  | .locked .sched l | .cpu .sched l => l = ptable ∧ f.held = [ptable]
  | .tests | .swtch _ | .resume _ | .forkret => f.held = [ptable]
  | .running | .popcli => True

theorem Frame.Placed.held_of_leaving (h : f.Placed ptable) (hl : f.pc.leaving = true) :
    f.held = [ptable] := by
  unfold Frame.Placed at h
  obtain ⟨pc, held, b⟩ := f
  cases pc with
  | locked k l =>
    cases k with
    | sched => exact h.2
    | acquire => cases hl
    | release => cases hl
  | cpu k l =>
    cases k with
    | sched => exact h.2
    | acquire => cases hl
    | release => cases hl
  | tests => exact h
  | swtch v => exact h
  | _ => cases hl

/-- What a thread has saved is FL_IF before its first lock. -/
def Frame.Saves (f : Frame Λ) : Prop :=
  match f.pc with
  | .cli _ e | .pushcli _ e => f.held = [] → e = f.before
  | .swtch v | .resume v => v = f.before
  | _ => True

structure Fits (ptable : Λ) (x : Cpu κ π) (f : Frame Λ) : Prop where
  ncli : x.ncli = f.held.length + f.pc.extra
  off : x.interruptible = true → f.held = [] ∧ f.pc.mayOpen = true
  eflags : ∀ l e, f.pc = .cli l e → e = x.interruptible
  nodup : f.held.Nodup
  placed : f.Placed ptable
  saves : f.Saves
  intena : 0 < x.ncli → f.pc.comesBack = false → x.intena = f.before

theorem Fits.closed (h : Fits ptable x f) (hf : f.pc.mayOpen = false) : x.interruptible = false := by
  rw [← Bool.not_eq_true]
  intro hx
  rw [(h.off hx).2] at hf
  cases hf

/-- A thread that comes back gets `ptable.lock` from the scheduler. -/
theorem Fits.of_comesBack (hback : f.pc.comesBack = true) (hsaves : f.Saves) (hone : x.ncli = 1)
    (hoff : x.interruptible = false) : Fits ptable x { f with held := [ptable] } ∧
      f.pc.leaving = false ∧ ∀ l, f.pc ≠ .record l ∧ f.pc ≠ .unlock l := by
  have hpc : (∃ v, f.pc = .resume v) ∨ f.pc = .forkret := by
    cases hf : f.pc with
    | resume v => exact .inl ⟨v, rfl⟩
    | forkret => exact .inr rfl
    | _ =>
      rw [hf] at hback
      cases hback
  have hon {P : Prop} (h : x.interruptible = true) : P := by
    rw [hoff] at h
    cases h
  rcases hpc with ⟨v, hv⟩ | hv
  · refine ⟨⟨?_, hon, ?_, List.nodup_singleton _, ?_, ?_, fun _ h => ?_⟩, ?_, ?_⟩
    · rw [hone, hv]
      rfl
    · rw [hv]
      rintro _ _ ⟨⟩
    · simp only [Frame.Placed, hv]
    · simpa only [Frame.Saves, hv] using hsaves
    · rw [hback] at h
      cases h
    · rw [hv]
      rfl
    · rw [hv]
      exact fun l => ⟨by rintro ⟨⟩, by rintro ⟨⟩⟩
  · refine ⟨⟨?_, hon, ?_, List.nodup_singleton _, ?_, ?_, fun _ h => ?_⟩, ?_, ?_⟩
    · rw [hone, hv]
      rfl
    · rw [hv]
      rintro _ _ ⟨⟩
    · simp only [Frame.Placed, hv]
    · simp only [Frame.Saves, hv]
    · rw [hback] at h
      cases h
    · rw [hv]
      rfl
    · rw [hv]
      exact fun l => ⟨by rintro ⟨⟩, by rintro ⟨⟩⟩

theorem pushcli_ok {e : Bool} (hx : x.interruptible = false) : x.pushcli e =
    .ok { x with intena := if x.ncli = 0 then e else x.intena, ncli := x.ncli + 1 } := by
  rw [Cpu.pushcli, hx]
  rfl

theorem popcli_ok (hx : x.interruptible = false) (hn : 0 < x.ncli) : x.popcli =
    .ok { x with
      ncli := x.ncli - 1
      interruptible := decide (x.ncli - 1 = 0) && x.intena } := by
  have hpos : ¬ x.ncli - 1 < 0 := by omega
  rw [Cpu.popcli, hx, if_neg hpos]
  rfl

theorem pushcli_more {e : Bool} (hx : x.interruptible = false) (hn : 0 < x.ncli) :
    x.pushcli e = .ok { x with ncli := x.ncli + 1 } := by
  rw [pushcli_ok hx, if_neg hn.ne']

theorem popcli_more (hx : x.interruptible = false) (hn : 1 < x.ncli) :
    x.popcli = .ok { x with ncli := x.ncli - 1 } := by
  have hne : x.ncli - 1 ≠ 0 := by omega
  rw [popcli_ok hx (by omega), decide_eq_false hne, Bool.false_and, ← hx]

/-- A lock that has been taken by a CPU, also where its record is yet to be made, or made no more. -/
def Frame.Has (f : Frame Λ) (l : Λ) : Prop := l ∈ f.held ∨ f.pc = .record l ∨ f.pc = .unlock l

/-- The locks are held by those who hold them. -/
structure Held (lk : Λ → Spinlock κ) (own : κ → Frame Λ) : Prop where
  locked : ∀ c l, (own c).Has l → (lk l).locked = true
  owner : ∀ l, (lk l).locked = true → ∃ c, (own c).Has l
  eq : ∀ c d l, (own c).Has l → (own d).Has l → c = d
  cpu : ∀ c l, (lk l).cpu = some c ↔ l ∈ (own c).held

variable [DecidableEq κ]

/-- One CPU goes on. -/
theorem Held.update {own : κ → Frame Λ} (h : Held lk own)
    (hlocked : ∀ l, (lk' l).locked = (lk l).locked ∧ (f'.Has l ↔ (own c).Has l) ∨
      (lk l).locked = false ∧ (lk' l).locked = true ∧ f'.Has l ∨
      (own c).Has l ∧ (lk' l).locked = false ∧ ¬ f'.Has l)
    (hcpu : ∀ l, (lk' l).cpu = (lk l).cpu ∧ (l ∈ f'.held ↔ l ∈ (own c).held) ∨
      (own c).Has l ∧ ((lk' l).cpu = some c ∧ l ∈ f'.held ∨ (lk' l).cpu = none ∧ l ∉ f'.held)) :
    Held lk' (Function.update own c f') := by
  have hne {d : κ} (hd : d ≠ c) : Function.update own c f' d = own d := Function.update_of_ne hd ..
  have hself : Function.update own c f' c = f' := Function.update_self ..
  have hfree (l : Λ) (hl : (lk l).locked = false) (d : κ) : ¬ (own d).Has l := by
    intro hd
    rw [h.locked d l hd] at hl
    cases hl
  refine ⟨fun d l hd => ?_, fun l hl => ?_, fun d e l hd he => ?_, fun d l => ?_⟩
  · by_cases hdc : d = c
    · subst hdc
      rw [hself] at hd
      rcases hlocked l with ⟨heq, hiff⟩ | ⟨-, hl, -⟩ | ⟨-, -, hno⟩
      · rw [heq]
        exact h.locked d l (hiff.1 hd)
      · exact hl
      · exact absurd hd hno
    · rw [hne hdc] at hd
      rcases hlocked l with ⟨heq, -⟩ | ⟨-, hl, -⟩ | ⟨hc, -, -⟩
      · rw [heq]
        exact h.locked d l hd
      · exact hl
      · exact absurd (h.eq d c l hd hc) hdc
  · rcases hlocked l with ⟨heq, hiff⟩ | ⟨-, -, hc⟩ | ⟨-, hno, -⟩
    · rw [heq] at hl
      obtain ⟨d, hd⟩ := h.owner l hl
      by_cases hdc : d = c
      · subst hdc
        exact ⟨d, by rw [hself]; exact hiff.2 hd⟩
      · exact ⟨d, by rw [hne hdc]; exact hd⟩
    · exact ⟨c, by rw [hself]; exact hc⟩
    · rw [hno] at hl
      cases hl
  · by_cases hdc : d = c
    · by_cases hec : e = c
      · rw [hdc, hec]
      · subst hdc
        rw [hself] at hd
        rw [hne hec] at he
        rcases hlocked l with ⟨-, hiff⟩ | ⟨hl, -⟩ | ⟨-, -, hno⟩
        · exact h.eq d e l (hiff.1 hd) he
        · exact absurd he (hfree l hl e)
        · exact absurd hd hno
    · rw [hne hdc] at hd
      by_cases hec : e = c
      · subst hec
        rw [hself] at he
        rcases hlocked l with ⟨-, hiff⟩ | ⟨hl, -⟩ | ⟨-, -, hno⟩
        · exact h.eq d e l hd (hiff.1 he)
        · exact absurd hd (hfree l hl d)
        · exact absurd he hno
      · rw [hne hec] at he
        exact h.eq d e l hd he
  · by_cases hdc : d = c
    · subst hdc
      rw [hself]
      rcases hcpu l with ⟨heq, hiff⟩ | ⟨-, ⟨heq, hl⟩ | ⟨heq, hl⟩⟩
      · rw [heq, hiff]
        exact h.cpu d l
      · simp [heq, hl]
      · simp [heq, hl]
    · rw [hne hdc]
      rcases hcpu l with ⟨heq, -⟩ | ⟨hc, ⟨heq, -⟩ | ⟨heq, -⟩⟩
      · rw [heq]
        exact h.cpu d l
      · have hno : l ∉ (own d).held := fun hl => hdc (h.eq d c l (.inl hl) hc)
        simp [heq, hno, Ne.symm hdc]
      · have hno : l ∉ (own d).held := fun hl => hdc (h.eq d c l (.inl hl) hc)
        simp [heq, hno]

/-- The locks stay, and so does what the CPU holds of them. -/
theorem Held.same {own : κ → Frame Λ} (h : Held lk own) (hheld : f'.held = (own c).held)
    (hf' : ∀ l, f'.pc ≠ .record l ∧ f'.pc ≠ .unlock l)
    (hf : ∀ l, (own c).pc ≠ .record l ∧ (own c).pc ≠ .unlock l) :
    Held lk (Function.update own c f') := by
  refine h.update (fun l => .inl ⟨rfl, ?_⟩) fun l => .inl ⟨rfl, by rw [hheld]⟩
  rw [Frame.Has, Frame.Has, hheld]
  simp [hf', hf]

variable [DecidableEq Λ] {own : κ → Frame Λ} {running b e : Bool} {held : List Λ} {k : Caller}

namespace Held

/-- `xchg` on a lock that is free. -/
theorem xchg (h : Held lk own) (hc : own c = ⟨.xchg l, held, b⟩) (hlk : (lk l).locked = false) :
    Held (Function.update lk l { lk l with locked := true })
      (Function.update own c ⟨.record l, held, b⟩) := by
  refine h.update (fun m => ?_) fun m => .inl ⟨?_, by rw [hc]⟩
  · by_cases hm : m = l
    · rw [hm, Function.update_self]
      exact .inr (.inl ⟨hlk, rfl, .inr (.inl rfl)⟩)
    · rw [Function.update_of_ne hm, hc]
      refine .inl ⟨rfl, ?_⟩
      simp [Frame.Has, Ne.symm hm]
  · by_cases hm : m = l
    · rw [hm, Function.update_self]
    · rw [Function.update_of_ne hm]

/-- The CPU of a lock is recorded. -/
theorem record (h : Held lk own) (hc : own c = ⟨.record l, held, b⟩) :
    Held (Function.update lk l { lk l with cpu := some c })
      (Function.update own c ⟨.running, l :: held, b⟩) := by
  refine h.update (fun m => .inl ⟨?_, ?_⟩) fun m => ?_
  · by_cases hm : m = l
    · rw [hm, Function.update_self]
    · rw [Function.update_of_ne hm]
  · rw [hc]
    simp [Frame.Has, or_comm, eq_comm]
  · by_cases hm : m = l
    · rw [hm, hc, Function.update_self]
      exact .inr ⟨.inr (.inl rfl), .inl ⟨rfl, List.mem_cons_self⟩⟩
    · rw [Function.update_of_ne hm, hc]
      exact .inl ⟨rfl, by simp [hm]⟩

/-- The record is taken back. -/
theorem clear (h : Held lk own) (hc : own c = ⟨.clear l, held, b⟩) (hl : l ∈ held)
    (hnodup : held.Nodup) : Held (Function.update lk l { lk l with cpu := none })
      (Function.update own c ⟨.unlock l, held.erase l, b⟩) := by
  refine h.update (fun m => .inl ⟨?_, ?_⟩) fun m => ?_
  · by_cases hm : m = l
    · rw [hm, Function.update_self]
    · rw [Function.update_of_ne hm]
  · rw [hc]
    by_cases hm : m = l
    · simp [Frame.Has, hm, hl]
    · simp [Frame.Has, Ne.symm hm, List.mem_erase_of_ne hm]
  · by_cases hm : m = l
    · rw [hm, hc, Function.update_self]
      exact .inr ⟨.inl hl, .inr ⟨rfl, fun h => (hnodup.mem_erase_iff.1 h).1 rfl⟩⟩
    · rw [Function.update_of_ne hm, hc]
      exact .inl ⟨rfl, List.mem_erase_of_ne hm⟩

/-- The lock is free again. -/
theorem unlock (h : Held lk own) (hc : own c = ⟨.unlock l, held, b⟩) (hl : l ∉ held) :
    Held (Function.update lk l { lk l with locked := false })
      (Function.update own c ⟨.popcli, held, b⟩) := by
  refine h.update (fun m => ?_) fun m => .inl ⟨?_, by rw [hc]⟩
  · by_cases hm : m = l
    · rw [hm, Function.update_self, hc]
      exact .inr (.inr ⟨.inr (.inr rfl), rfl, by simp [Frame.Has, hl]⟩)
    · rw [Function.update_of_ne hm, hc]
      refine .inl ⟨rfl, ?_⟩
      simp [Frame.Has, Ne.symm hm]
  · by_cases hm : m = l
    · rw [hm, Function.update_self]
    · rw [Function.update_of_ne hm]

end Held

/-! ### One access -/

/-- What an access leaves behind. -/
structure Accessed (ptable : Λ) (c : κ) (own : κ → Frame Λ) (x : Cpu κ π) (f : Frame Λ)
    (r : Cpu κ π × Frame Λ × (Λ → Spinlock κ)) : Prop where
  thread : r.1.thread = x.thread
  fits : Fits ptable r.1 r.2.1
  held : Held r.2.2 (Function.update own c r.2.1)
  leaving : r.2.1.pc.leaving = f.pc.leaving

omit [DecidableEq κ] in
theorem off_false (hx : x.interruptible = false) {P : Prop} (h : x.interruptible = true) : P := by
  rw [hx] at h
  cases h

theorem access_pushcli (hf : Fits ptable x ⟨.pushcli l e, held, b⟩) (hl : Held lk own)
    (hc : own c = ⟨.pushcli l e, held, b⟩) :
    ∃ r, access running c x ⟨.pushcli l e, held, b⟩ lk = .ok r ∧
      Accessed ptable c own x ⟨.pushcli l e, held, b⟩ r := by
  have hx : x.interruptible = false := hf.closed rfl
  have hlen : x.ncli = held.length := by simpa [Pc.extra] using hf.ncli
  have hsaves : held = [] → e = b := hf.saves
  simp only [access, pushcli_ok hx]
  refine ⟨_, rfl, rfl, ⟨?_, off_false hx, by rintro _ _ ⟨⟩, hf.nodup, hf.placed, trivial, ?_⟩,
    hl.same (by rw [hc]) ?_ ?_, rfl⟩
  · exact congrArg (· + 1) hlen
  · rintro - -
    dsimp only
    split_ifs with hn
    · rw [hlen, Int.natCast_eq_zero, List.length_eq_zero_iff] at hn
      exact hsaves hn
    · refine hf.intena (lt_of_le_of_ne ?_ (Ne.symm hn)) rfl
      rw [hlen]
      exact Int.natCast_nonneg _
  · exact fun l => ⟨by rintro ⟨⟩, by rintro ⟨⟩⟩
  · rw [hc]
    exact fun l => ⟨by rintro ⟨⟩, by rintro ⟨⟩⟩

omit [DecidableEq κ] [DecidableEq Λ] in
theorem ncli_pos (hf : Fits ptable x ⟨.locked k l, held, b⟩) : 0 < x.ncli := by
  have hplaced := hf.placed
  rw [hf.ncli]
  cases k with
  | acquire => exact Int.lt_add_one_of_le (Int.natCast_nonneg _)
  | release =>
    have hmem : l ∈ held := hplaced
    simpa [Pc.extra] using List.length_pos_of_mem hmem
  | sched =>
    have hheld : held = [ptable] := hplaced.2
    simp [Pc.extra, hheld]

/-- `holding` reads `locked`. -/
theorem access_locked (hf : Fits ptable x ⟨.locked k l, held, b⟩) (hl : Held lk own)
    (hc : own c = ⟨.locked k l, held, b⟩) :
    ∃ r, access running c x ⟨.locked k l, held, b⟩ lk = .ok r ∧
      Accessed ptable c own x ⟨.locked k l, held, b⟩ r := by
  have hx : x.interruptible = false := hf.closed rfl
  have hpos := ncli_pos hf
  have hplaced := hf.placed
  have hback : ({ x with ncli := x.ncli + 1 } : Cpu κ π).popcli = .ok x := by
    rw [popcli_more (x := { x with ncli := x.ncli + 1 }) hx (Int.lt_add_of_pos_left 1 hpos)]
    simp
  simp only [access, pushcli_more hx hpos]
  cases hlk : (lk l).locked with
  | true =>
    refine ⟨_, rfl, rfl, ⟨?_, off_false hx, by rintro _ _ ⟨⟩, hf.nodup, ?_, trivial, ?_⟩,
      hl.same (by rw [hc]) ?_ ?_, ?_⟩
    · have hncli : x.ncli = held.length + Pc.extra (.locked k l) := hf.ncli
      show x.ncli + 1 = held.length + Pc.extra (.cpu k l)
      cases k <;> simp only [Pc.extra] at hncli ⊢ <;> omega
    · cases k <;> exact hplaced
    · exact fun _ _ => hf.intena hpos rfl
    · exact fun l => ⟨by rintro ⟨⟩, by rintro ⟨⟩⟩
    · rw [hc]
      exact fun l => ⟨by rintro ⟨⟩, by rintro ⟨⟩⟩
    · cases k <;> rfl
  | false =>
    have hfree : l ∉ held := by
      intro hmem
      have := hl.locked c l (.inl (by rwa [hc]))
      rw [hlk] at this
      cases this
    cases k with
    | acquire =>
      refine ⟨(x, ⟨.xchg l, held, b⟩, lk), ?_, rfl, ⟨hf.ncli, off_false hx, by rintro _ _ ⟨⟩,
        hf.nodup, hfree, trivial, fun _ _ => hf.intena hpos rfl⟩, hl.same (by rw [hc]) ?_ ?_, rfl⟩
      · simp only [Except.bind, bind, hback]
        rfl
      · exact fun l => ⟨by rintro ⟨⟩, by rintro ⟨⟩⟩
      · rw [hc]
        exact fun l => ⟨by rintro ⟨⟩, by rintro ⟨⟩⟩
    | release => exact absurd hplaced hfree
    | sched =>
      obtain ⟨rfl, rfl⟩ : l = ptable ∧ held = [ptable] := hplaced
      exact absurd (List.mem_singleton_self l) hfree

/-- `holding` reads `cpu`, and is right. -/
theorem access_cpu (hf : Fits ptable x ⟨.cpu k l, held, b⟩) (hl : Held lk own)
    (hc : own c = ⟨.cpu k l, held, b⟩) :
    ∃ r, access running c x ⟨.cpu k l, held, b⟩ lk = .ok r ∧
      Accessed ptable c own x ⟨.cpu k l, held, b⟩ r := by
  have hx : x.interruptible = false := hf.closed rfl
  have hplaced := hf.placed
  have hncli := hf.ncli
  have hcpu : decide ((lk l).cpu = some c) = decide (l ∈ held) := by
    rw [decide_eq_decide, hl.cpu c l, hc]
  have hlength := Int.natCast_nonneg held.length
  have hgo (pc : Pc Λ) (hpos : 1 < x.ncli) (hr : afterHolding (decide (l ∈ held)) k l = .ok pc)
      (hextra : pc.extra = Pc.extra (.cpu k l) - 1) (hopen : pc.mayOpen = false)
      (hpl : Frame.Placed ptable ⟨pc, held, b⟩) (hsaves : Frame.Saves ⟨pc, held, b⟩)
      (hpc : ∀ l, pc ≠ .record l ∧ pc ≠ .unlock l) (hleaving : pc.leaving = Pc.leaving (.cpu k l)) :
      ∃ r, access running c x ⟨.cpu k l, held, b⟩ lk = .ok r ∧
        Accessed ptable c own x ⟨.cpu k l, held, b⟩ r := by
    simp only [access, popcli_more hx hpos, hcpu]
    refine ⟨({ x with ncli := x.ncli - 1 }, ⟨pc, held, b⟩, lk), ?_, rfl, ⟨?_, off_false hx, ?_,
      hf.nodup, hpl, hsaves, fun _ _ => hf.intena (by omega) rfl⟩, hl.same (by rw [hc]) hpc ?_, hleaving⟩
    · simp only [bind, Except.bind, hr]
      rfl
    · simp only [hncli, hextra]
      omega
    · rintro m v rfl
      cases hopen
    · rw [hc]
      exact fun l => ⟨by rintro ⟨⟩, by rintro ⟨⟩⟩
  cases k with
  | acquire =>
    have hfree : l ∉ held := hplaced
    simp only [Pc.extra] at hncli
    refine hgo (.xchg l) (by omega) ?_ rfl rfl hfree trivial ?_ rfl
    · rw [decide_eq_false hfree]
      rfl
    · exact fun l => ⟨by rintro ⟨⟩, by rintro ⟨⟩⟩
  | release =>
    have hmem : l ∈ held := hplaced
    have := List.length_pos_of_mem hmem
    simp only [Pc.extra] at hncli
    refine hgo (.clear l) (by omega) ?_ rfl rfl hmem trivial ?_ rfl
    · rw [decide_eq_true hmem]
      rfl
    · exact fun l => ⟨by rintro ⟨⟩, by rintro ⟨⟩⟩
  | sched =>
    obtain ⟨rfl, hheld⟩ : l = ptable ∧ held = [ptable] := hplaced
    have hmem : l ∈ held := by
      rw [hheld]
      exact List.mem_singleton_self l
    have := List.length_pos_of_mem hmem
    simp only [Pc.extra] at hncli
    refine hgo .tests (by omega) ?_ rfl rfl hheld trivial ?_ rfl
    · rw [decide_eq_true hmem]
      rfl
    · exact fun l => ⟨by rintro ⟨⟩, by rintro ⟨⟩⟩

theorem access_popcli (hf : Fits ptable x ⟨.popcli, held, b⟩) (hl : Held lk own)
    (hc : own c = ⟨.popcli, held, b⟩) :
    ∃ r, access running c x ⟨.popcli, held, b⟩ lk = .ok r ∧
      Accessed ptable c own x ⟨.popcli, held, b⟩ r := by
  have hx : x.interruptible = false := hf.closed rfl
  have hlen : x.ncli = held.length + 1 := hf.ncli
  have hpos : 0 < x.ncli := by omega
  simp only [access, popcli_ok hx hpos]
  refine ⟨_, rfl, rfl, ⟨?_, fun hopen => ?_, by rintro _ _ ⟨⟩, hf.nodup, trivial, trivial, ?_⟩,
    hl.same (by rw [hc]) ?_ ?_, rfl⟩
  · simp [hlen, Pc.extra]
  · dsimp only at hopen
    rw [hlen, Int.add_sub_cancel, Bool.and_eq_true, decide_eq_true_eq, Int.natCast_eq_zero,
      List.length_eq_zero_iff] at hopen
    exact ⟨hopen.1, rfl⟩
  · exact fun _ _ => hf.intena hpos rfl
  · exact fun l => ⟨by rintro ⟨⟩, by rintro ⟨⟩⟩
  · rw [hc]
    exact fun l => ⟨by rintro ⟨⟩, by rintro ⟨⟩⟩

theorem access_tests (hf : Fits ptable x ⟨.tests, held, b⟩) (hl : Held lk own)
    (hc : own c = ⟨.tests, held, b⟩) :
    ∃ r, access false c x ⟨.tests, held, b⟩ lk = .ok r ∧
      Accessed ptable c own x ⟨.tests, held, b⟩ r := by
  have hx : x.interruptible = false := hf.closed rfl
  have hheld : held = [ptable] := hf.placed
  have hone : x.ncli = 1 := by
    rw [hf.ncli, hheld]
    rfl
  have hintena : x.intena = b := hf.intena (by rw [hone]; exact one_pos) rfl
  refine ⟨(x, ⟨.swtch x.intena, held, b⟩, lk), ?_, rfl, ⟨hf.ncli, off_false hx, by rintro _ _ ⟨⟩,
    hf.nodup, hheld, hintena, fun _ _ => hintena⟩, hl.same (by rw [hc]) ?_ ?_, rfl⟩
  · simp [access, hone, hx]
  · exact fun l => ⟨by rintro ⟨⟩, by rintro ⟨⟩⟩
  · rw [hc]
    exact fun l => ⟨by rintro ⟨⟩, by rintro ⟨⟩⟩

/-- No access panics, and each keeps `pushcli` and `popcli` matched and the locks with their holders. -/
theorem access_spec (hf : Fits ptable x f) (hl : Held lk own) (hown : own c = f)
    (hrunning : f.pc = .tests → running = false) (hpc : f.pc ≠ .running) (hswtch : ∀ v, f.pc ≠ .swtch v) :
    ∃ r, access running c x f lk = .ok r ∧ Accessed ptable c own x f r := by
  obtain ⟨pc, held, b⟩ := f
  cases pc with
  | running => exact absurd rfl hpc
  | swtch v => exact absurd rfl (hswtch v)
  | cli l e =>
    refine ⟨_, rfl, rfl, ⟨hf.ncli, by rintro ⟨⟩, by rintro _ _ ⟨⟩, hf.nodup, hf.placed, hf.saves,
      hf.intena⟩, hl.same (by rw [hown]) ?_ ?_, rfl⟩
    · exact fun l => ⟨by rintro ⟨⟩, by rintro ⟨⟩⟩
    · rw [hown]
      exact fun l => ⟨by rintro ⟨⟩, by rintro ⟨⟩⟩
  | pushcli l e => exact access_pushcli hf hl hown
  | locked k l => exact access_locked hf hl hown
  | cpu k l => exact access_cpu hf hl hown
  | xchg l =>
    have hx : x.interruptible = false := hf.closed rfl
    simp only [access]
    cases hlk : (lk l).locked with
    | true =>
      refine ⟨_, rfl, rfl, hf, ?_, rfl⟩
      rwa [← hown, Function.update_eq_self]
    | false =>
      exact ⟨_, rfl, rfl, ⟨hf.ncli, off_false hx, by rintro _ _ ⟨⟩, hf.nodup, hf.placed, trivial,
        hf.intena⟩, hl.xchg hown hlk, rfl⟩
  | record l =>
    have hx : x.interruptible = false := hf.closed rfl
    refine ⟨_, rfl, rfl, ⟨?_, off_false hx, by rintro _ _ ⟨⟩, ?_, trivial, trivial, hf.intena⟩,
      hl.record hown, rfl⟩
    · rw [hf.ncli]
      simp [Pc.extra]
    · exact List.nodup_cons.2 ⟨hf.placed, hf.nodup⟩
  | clear l =>
    have hx : x.interruptible = false := hf.closed rfl
    have hmem : l ∈ held := hf.placed
    have hnodup : held.Nodup := hf.nodup
    have hlen : (held.erase l).length + 1 = held.length := by
      rw [List.length_erase_of_mem hmem]
      exact Nat.sub_add_cancel (List.length_pos_of_mem hmem)
    refine ⟨_, rfl, rfl, ⟨?_, off_false hx, by rintro _ _ ⟨⟩, hnodup.erase l, ?_, trivial,
      hf.intena⟩, hl.clear hown hmem hnodup, rfl⟩
    · rw [hf.ncli]
      simp only [Pc.extra, ← hlen]
      push_cast
      omega
    · exact fun h => (hnodup.mem_erase_iff.1 h).1 rfl
  | unlock l =>
    have hx : x.interruptible = false := hf.closed rfl
    exact ⟨_, rfl, rfl, ⟨hf.ncli, off_false hx, by rintro _ _ ⟨⟩, hf.nodup, trivial, trivial,
      hf.intena⟩, hl.unlock hown hf.placed, rfl⟩
  | popcli => exact access_popcli hf hl hown
  | tests =>
    rw [hrunning rfl]
    exact access_tests hf hl hown
  | resume v =>
    have hx : x.interruptible = false := hf.closed rfl
    refine ⟨_, rfl, rfl, ⟨hf.ncli, off_false hx, by rintro _ _ ⟨⟩, hf.nodup, trivial, trivial,
      fun _ _ => hf.saves⟩, hl.same (by rw [hown]) ?_ ?_, rfl⟩
    · exact fun l => ⟨by rintro ⟨⟩, by rintro ⟨⟩⟩
    · rw [hown]
      exact fun l => ⟨by rintro ⟨⟩, by rintro ⟨⟩⟩
  | forkret =>
    have hx : x.interruptible = false := hf.closed rfl
    refine ⟨_, rfl, rfl, ⟨hf.ncli, off_false hx, by rintro _ _ ⟨⟩, hf.nodup, trivial, trivial,
      fun _ _ => rfl⟩, hl.same (by rw [hown]) ?_ ?_, rfl⟩
    · exact fun l => ⟨by rintro ⟨⟩, by rintro ⟨⟩⟩
    · rw [hown]
      exact fun l => ⟨by rintro ⟨⟩, by rintro ⟨⟩⟩

end Xv6Container.Locks.Spin
