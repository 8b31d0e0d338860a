import Xv6Container.Pipes.Sleepers
import Xv6Container.Plumbing.Stages

/-! Processes of a shell that sleep: they wait for a child, or they are programs that wait for a pipe
of a pipeline that they belong to. -/

namespace Xv6Container.Plumbing

open Function Names Lib
open Files (Between Page)
open Shell (Tree nul)

variable {X U : Type} {Q : Programs X} {P : Programs U} {lines : List (List Char)} {g : Wiring}
  {p q : Slot} {e : Env} {σ τ : Path} {st : Stage} {W : Fd → Option Wire} {t u : Tree}

/-! ### Calls that sleep -/

section Calls

variable {m : Machine X} {x : X} {fd : ℕ}

theorem run_ne_asleep {α : Type} (y : Files.Run α) (answer : α → Answer) :
    m.run Q p x y answer ≠ .error .asleep := by
  rw [Machine.run]
  split
  · rintro ⟨⟩
  · rintro ⟨⟩

theorem le_writeLoop (addr : ℕ → Pipes.Byte) (k i : ℕ) (b : Pipes.Pipe) :
    i ≤ (b.writeLoop addr k i).1 := by
  induction k generalizing i b with
  | zero => exact le_refl i
  | succ k ih =>
    rw [Pipes.Pipe.writeLoop]
    split_ifs
    · exact le_refl i
    · exact (Nat.le_succ i).trans (ih (i + 1) (b.store (addr i)))

/-- `pipewrite` stores nothing just if the pipe is full. -/
theorem writeLoop_stuck {addr : ℕ → Pipes.Byte} {k i : ℕ} {b : Pipes.Pipe} (hk : 0 < k) :
    (b.writeLoop addr k i).1 = i ↔ b.full = true := by
  obtain ⟨k, rfl⟩ := Nat.exists_eq_add_one_of_ne_zero hk.ne'
  rw [Pipes.Pipe.writeLoop]
  split_ifs with hfull
  · exact iff_of_true rfl hfull
  · refine iff_of_false ?_ hfull
    have := le_writeLoop addr k (i + 1) (b.store (addr i))
    omega

theorem read_asleep {n : ℤ} : m.read Q p x fd n e = .error .asleep ↔
    ∃ f pg b, m.file p fd = some f ∧ (m.files.fs.file f).readable = true ∧
      m.files.pipe f = some pg ∧ m.files.pipes pg = some b ∧ b.empty ∧ b.writeopen := by
  rw [Machine.read]
  constructor
  · intro h
    split at h
    · cases h
    next f hf =>
      split_ifs at h with hreadable
      split at h
      · cases h
      next pg hpg =>
        split at h
        · cases h
        next b hb =>
          split_ifs at h with hempty
          rw [Bool.and_eq_true] at hempty
          exact ⟨f, pg, b, hf, Bool.eq_true_of_not_eq_false hreadable, hpg, hb, hempty.1, hempty.2⟩
  · rintro ⟨f, pg, b, hf, hreadable, hpg, hb, hempty, hopen⟩
    simp only [hf, hreadable, hpg, hb, hempty, hopen, Bool.and_self, if_true, Bool.true_eq_false,
      if_false]

theorem write_asleep {addr : ℕ → Pipes.Byte} {n : ℤ} :
    m.write Q p x fd addr n e = .error .asleep ↔
    ∃ f pg b, m.file p fd = some f ∧ (m.files.fs.file f).writable = true ∧
      m.files.pipe f = some pg ∧ m.files.pipes pg = some b ∧ b.full ∧ b.readopen ∧
      m.sent p < n := by
  rw [Machine.write]
  constructor
  · intro h
    split at h
    · cases h
    next f hf =>
      split_ifs at h with hwritable
      split at h
      · cases h
      next pg hpg =>
        split at h
        · cases h
        next b hb =>
          have hflags := writeLoop_flags addr (n.toNat - m.sent p) (m.sent p) b
          rcases hloop : b.writeLoop addr (n.toNat - m.sent p) (m.sent p) with ⟨j, c⟩
          rw [hloop] at h hflags
          dsimp only at h
          split_ifs at h with hj hopen hsent
          rw [hsent] at hj
          have hk : 0 < n.toNat - m.sent p := by omega
          have hfull := (writeLoop_stuck hk).1 ((congrArg Prod.fst hloop).trans hsent)
          rw [hflags.1] at hopen
          exact ⟨f, pg, b, hf, Bool.eq_true_of_not_eq_false hwritable, hpg, hb, hfull,
            Bool.eq_true_of_not_eq_false hopen, hj⟩
  · rintro ⟨f, pg, b, hf, hwritable, hpg, hb, hfull, hopen, hsent⟩
    have hloop : b.writeLoop addr (n.toNat - m.sent p) (m.sent p) = (m.sent p, b) :=
      Pipes.Pipe.writeLoop_full hfull
    simp only [hf, hwritable, hpg, hb, hloop, hsent, hopen, if_true, Bool.true_eq_false, if_false]

/-- A process sleeps just if its next step is to sleep. -/
theorem asleep_iff : step Q m (.call p e) = .error .asleep ↔ m.Sleeps Q p := by
  rw [step, Machine.Sleeps]
  cases hx : m.task p with
  | none =>
    refine iff_of_false (by rintro ⟨⟩) ?_
    rintro ⟨x, ⟨⟩, -⟩
  | some x =>
    simp only [Option.some.injEq, exists_eq_left']
    cases hc : Q.call x with
    | open_ path omode => exact iff_of_false (run_ne_asleep _ _) id
    | close fd =>
      refine iff_of_false ?_ id
      rw [Machine.callStep, Machine.close]
      split
      · rintro ⟨⟩
      · exact run_ne_asleep _ _
    | dup fd =>
      refine iff_of_false ?_ id
      rw [Machine.callStep, Machine.dup]
      split
      · rintro ⟨⟩
      · exact run_ne_asleep _ _
    | pipe => exact iff_of_false (run_ne_asleep _ _) id
    | chdir path => exact iff_of_false (run_ne_asleep _ _) id
    | read fd n => exact read_asleep
    | write fd addr n => exact write_asleep
    | fork =>
      refine iff_of_false ?_ id
      rw [Machine.callStep, Machine.fork]
      split
      · split_ifs
        · rintro ⟨⟩
        · rintro ⟨⟩
      · split_ifs
        · split
          · rintro ⟨⟩
          · rintro ⟨⟩
        · rintro ⟨⟩
    | wait =>
      rw [Machine.callStep, Machine.wait]
      constructor
      · intro h
        split at h
        · cases h
        next hnone =>
          split_ifs at h with hkids
          refine ⟨hkids, fun q hq => ?_⟩
          have := List.find?_eq_none.1 hnone q (List.mem_finRange q)
          by_contra hdead
          exact this (decide_eq_true ⟨hq, Bool.eq_true_of_not_eq_false hdead⟩)
      · rintro ⟨hkids, hlive⟩
        split
        next q hq =>
          have hfound := List.find?_some hq
          obtain ⟨hparent, hdead⟩ := of_decide_eq_true hfound
          rw [hlive q hparent] at hdead
          cases hdead
        · rw [if_pos hkids]
    | exec path argv =>
      refine iff_of_false ?_ id
      rw [Machine.callStep, Machine.exec]
      split
      · rintro ⟨⟩
      · rintro ⟨⟩
      · rintro ⟨⟩
    | exit =>
      refine iff_of_false ?_ id
      rw [Machine.callStep, Machine.exit]
      split
      · rintro ⟨⟩
      · rintro ⟨⟩

end Calls

/-! ### Where they sleep -/

/-- The stages at which a process can sleep. -/
def Rests : Stage → Prop
  | .mainWait _ | .listWait | .wait2 | .wait1 | .user => True
  | _ => False

/-- An end of the pipe at `σ` has to wait for the other. -/
def Blocked (g : Wiring) (m : Machine X) (σ : Path) (b : Bool) : Prop :=
  ∃ c, m.files.pipes (g.page σ) = some c ∧ c.isOpen (!b) = true ∧
    if b then c.full = true else c.empty = true

theorem Blocked.not_both {m : Machine X} {b : Bool} (h : Blocked g m σ b)
    (h' : Blocked g m σ !b) : False := by
  obtain ⟨c, hc, -, hb⟩ := h
  obtain ⟨c', hc', -, hb'⟩ := h'
  obtain rfl := Option.some.inj (hc.symm.trans hc')
  have hfull : c.full = true → c.empty = true → False := by
    intro hfull hempty
    have hcount := Pipes.Pipe.full_iff.1 hfull
    rw [Pipes.Pipe.empty_iff.1 hempty] at hcount
    exact absurd hcount (by decide)
  cases b with
  | true => exact hfull hb hb'
  | false => exact hfull hb' hb

section Sleepers

variable {m : Machine (Task U)} {x : Task U} {c : Code}

theorem runcmd_ne_wait (t : Tree) : (runcmd t).call ≠ .wait := by
  cases t with
  | exec argv =>
    rw [runcmd]
    split_ifs
    · rintro ⟨⟩
    · rintro ⟨⟩
  | _ => rintro ⟨⟩

theorem main_ne_wait (lines : List (List Char)) : (main lines).call ≠ .wait := by
  cases lines with
  | nil => rintro ⟨⟩
  | cons text lines =>
    rw [main]
    split_ifs
    · rintro ⟨⟩
    · rintro ⟨⟩

theorem Stands.rests (h : Stands lines σ W st (.shell c : Task U)) (hc : c.call = .wait) :
    Rests st := by
  cases h with
  | mainWait | listWait | wait2 | wait1 => trivial
  | main k => exact absurd hc (main_ne_wait _)
  | run _ => exact absurd hc (runcmd_ne_wait _)
  | _ => cases hc

/-- A process at rest is at a node or in `main`. -/
theorem Stands.node (h : Stands lines σ W st x) (hst : Rests st) :
    σ = [] ∨ ∃ t, treeAt lines σ = some t := by
  cases h with
  | mainWait k => exact .inl rfl
  | listWait h | wait2 h | wait1 h | user h _ => exact .inr ⟨_, h⟩
  | _ => cases hst

theorem kept_standard {e : ℕ → Wire} : Kept e (standard e) := by
  intro fd w hw
  rw [standard] at hw
  split_ifs at hw with hfd
  exact .inl ⟨fd, hfd, (Option.some.inj hw).symm⟩

theorem Stands.kept (h : Stands lines σ W st x) (hst : Rests st) : Kept (env lines σ) W := by
  cases h with
  | mainWait | listWait | wait2 | wait1 => exact kept_standard
  | user _ hW => exact hW
  | _ => cases hst

/-- The end of a pipe that a descriptor leads to. -/
theorem Wired.end_of_file {fd : ℕ} {f : FileId} {pg : Page} (h : Wired g m)
    (hp : m.task p = some x) (hf : m.file p fd = some f) (hpg : m.files.pipe f = some pg) :
    ∃ fd σ, g.wires p fd = some (.pipe σ (m.files.fs.file f).writable) ∧ g.page σ = pg := by
  obtain ⟨fd, -, hfd⟩ := Option.bind_eq_some_iff.1 hf
  rw [h.table p x hp] at hfd
  obtain ⟨w, hw, rfl⟩ := Option.map_eq_some_iff.1 hfd
  have hdenotes := h.denotes w ⟨p, x, fd, hp, hw⟩
  cases w with
  | pipe σ b =>
    change m.files.endOf _ = _ at hdenotes
    rw [Files.State.endOf, hpg, Option.map_some] at hdenotes
    obtain ⟨hpage, hb⟩ := Prod.mk.inj (Option.some.inj hdenotes)
    refine ⟨fd, σ, ?_, hpage.symm⟩
    rw [hb, hw]
  | _ =>
    change m.files.pipe _ = none at hdenotes
    rw [hpg] at hdenotes
    cases hdenotes

/-- An open end of a pipe belongs to a process. -/
theorem Wired.holder {pg : Page} {b : Bool} (h : Wired g m) (hopen : m.files.isOpen pg b = true) :
    ∃ p x fd σ, m.task p = some x ∧ g.wires p fd = some (.pipe σ b) ∧ g.page σ = pg := by
  obtain ⟨p, fd, f, hf, hend⟩ := h.between.holder hopen
  obtain ⟨pg', hpg, hpair⟩ := Option.map_eq_some_iff.1 hend
  obtain ⟨rfl, hside⟩ := Prod.mk.inj hpair
  cases hx : m.task p with
  | none =>
    have hnone := h.outside p hx fd f hf
    rw [hpg] at hnone
    cases hnone
  | some x =>
    have hfile : m.file p fd = some f := by
      rw [Machine.file, argfd_val, Option.bind_some, hf]
    obtain ⟨fd, σ, hw, hpage⟩ := h.end_of_file hx hfile hpg
    rw [hside] at hw
    exact ⟨p, x, fd, σ, hx, hw, hpage⟩

/-- What a process of a shell sleeps on: a child, or the other end of a pipe that a pipeline has
given to it. -/
theorem Inv.sleeper (h : Inv lines g m) (hp : m.task p = some x)
    (hs : m.Sleeps (withShell P) p) : Rests (g.stage p) ∧
    ((∃ q y, m.parent q = some p ∧ m.task q = some y) ∨
      g.stage p = .user ∧ ∃ fd σ b, g.wires p fd = some (.pipe σ b) ∧ Blocked g m σ b) := by
  have hstands := h.placed.stands p x hp
  obtain ⟨x', hp', hs⟩ := hs
  obtain rfl := Option.some.inj (hp.symm.trans hp')
  have hkid : (∃ q, m.parent q = some p) ∧ (∀ q, m.parent q = some p → m.zombie q = false) →
      ∃ q y, m.parent q = some p ∧ m.task q = some y := by
    rintro ⟨⟨q, hq⟩, hlive⟩
    cases hy : m.task q with
    | none =>
      have hdead := (h.family.alive p q hq).2 hy
      rw [hlive q hq] at hdead
      cases hdead
    | some y => exact ⟨q, y, hq, hy⟩
  cases x with
  | shell c =>
    have hwait : c.call = .wait := by
      cases c with
      | wait next => rfl
      | _ => exact hs.elim
    have hcall : (withShell P).call (.shell c) = .wait := hwait
    rw [hcall] at hs
    exact ⟨hstands.rests hwait, .inl (hkid hs)⟩
  | user u =>
    obtain ⟨hst, -⟩ := hstands.of_user
    refine ⟨hst ▸ trivial, ?_⟩
    have hcall : (withShell P).call (.user u) = P.call u := rfl
    rw [hcall] at hs
    cases hu : P.call u with
    | wait =>
      rw [hu] at hs
      exact .inl (hkid hs)
    | read fd n =>
      rw [hu] at hs
      obtain ⟨f, pg, b, hf, hreadable, hpg, hb, hempty, hopen⟩ := hs
      obtain ⟨fd, σ, hw, rfl⟩ := h.wired.end_of_file hp hf hpg
      have hside := h.wired.sided f (by rw [hpg]; rintro ⟨⟩)
      rw [hreadable] at hside
      have hfalse : (m.files.fs.file f).writable = false := by
        cases hwritable : (m.files.fs.file f).writable with
        | false => rfl
        | true =>
          rw [hwritable] at hside
          cases hside
      rw [hfalse] at hw
      exact .inr ⟨hst, fd, σ, false, hw, b, hb, hopen, hempty⟩
    | write fd addr n =>
      rw [hu] at hs
      obtain ⟨f, pg, b, hf, hwritable, hpg, hb, hfull, hopen, -⟩ := hs
      obtain ⟨fd, σ, hw, rfl⟩ := h.wired.end_of_file hp hf hpg
      rw [hwritable] at hw
      exact .inr ⟨hst, fd, σ, true, hw, b, hb, hopen, hfull⟩
    | _ =>
      rw [hu] at hs
      exact hs.elim

end Sleepers

end Xv6Container.Plumbing
