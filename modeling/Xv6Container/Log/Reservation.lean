import Mathlib.Data.Fintype.Basic
import Xv6Container.Lib.Reach
import Xv6Container.Lib.Budget
import Xv6Container.Log.Header

/-! How much of the log the operations between `begin_op` and `end_op` may use. One action
is the start of a call or the next critical section of one; `log_write` tests the room in
the log without the lock and adds the block under it, so other sections may come between.
What `commit` does on the disk does not matter here: it leaves the header empty. -/

namespace Xv6Container.Log

open Lib

abbrev NPROC : ℕ := 64
abbrev Slot := Fin NPROC

/-! ### Operations on the log -/

/-- Where a process is: outside of every operation, before the test of `begin_op` or
asleep after it, inside its operation, in `log_write` after the tests, in `end_op` before
`commit` or after it. -/
inductive OpPc where
  | idle
  | beginning
  | waiting
  | running
  | adding (b : BlockNo)
  | committing
  | committed
  deriving DecidableEq

/-- Between `begin_op` and `end_op`. -/
def OpPc.active : OpPc → Bool
  | .running | .adding _ => true
  | _ => false

/-- In the part of `end_op` that commits. -/
def OpPc.commits : OpPc → Bool
  | .committing | .committed => true
  | _ => false

namespace Reservation

/-- `wrote` only records the blocks that each operation has given to `log_write`. -/
structure Sys where
  lh : List BlockNo
  outstanding : ℤ
  committing : Bool
  pc : Slot → OpPc
  wrote : Slot → Finset BlockNo

inductive Act where
  | begin_op (p : Slot)
  | log_write (p : Slot) (b : BlockNo)
  | end_op (p : Slot)
  | step (p : Slot)
  | kill (p : Slot)
  deriving DecidableEq

namespace Sys

def goto (s : Sys) (p : Slot) (pc : OpPc) : Sys := { s with pc := Function.update s.pc p pc }

/-- `wakeup(&log)`: the processes that sleep in `begin_op` test again. -/
def wakeup (s : Sys) : Sys :=
  { s with pc := fun p => if s.pc p = .waiting then .beginning else s.pc p }

/-- One pass of the loop in `begin_op`. -/
def beginOp (s : Sys) (p : Slot) : Sys :=
  if s.committing then s.goto p .waiting
  else if s.lh.length + (s.outstanding + 1) * MAXOPBLOCKS > LOGSIZE then s.goto p .waiting
  else { s with outstanding := s.outstanding + 1, wrote := Function.update s.wrote p ∅ }.goto p
    .running

/-- The first section of `end_op`. -/
def endOp (s : Sys) (p : Slot) : Except Stop Sys :=
  if s.committing then .error (.panic "log.committing")
  else if s.outstanding - 1 = 0 then
    .ok ({ s with outstanding := s.outstanding - 1, committing := true }.goto p .committing)
  else .ok ({ s with outstanding := s.outstanding - 1 }.goto p .idle).wakeup

/-- `log_write` up to `acquire(&log.lock)`. -/
def logWrite (s : Sys) (p : Slot) (b : BlockNo) : Except Stop Sys :=
  match logWriteTest s.lh s.outstanding with
  | .error e => .error e
  | .ok () =>
    .ok ({ s with wrote := Function.update s.wrote p (insert b (s.wrote p)) }.goto p (.adding b))

/-- The locked part of `log_write`. -/
def logAdd (s : Sys) (p : Slot) (b : BlockNo) : Except Stop Sys :=
  match logWriteAdd s.lh b with
  | .error e => .error e
  | .ok lh => .ok ({ s with lh := lh }.goto p .running)

end Sys

/-- The next section of the call `p` is in. -/
def sectionStep (s : Sys) (p : Slot) : Except Stop Sys :=
  match s.pc p with
  | .beginning => .ok (s.beginOp p)
  | .adding b => s.logAdd p b
  | .committing => .ok ({ s with lh := [] }.goto p .committed)
  | .committed => .ok ({ s with committing := false }.goto p .idle).wakeup
  | .idle | .waiting | .running => .error .disabled

def step (s : Sys) : Act → Except Stop Sys
  | .begin_op p => if s.pc p = .idle then .ok (s.goto p .beginning) else .error .disabled
  | .log_write p b => if s.pc p = .running then s.logWrite p b else .error .disabled
  | .end_op p => if s.pc p = .running then s.endOp p else .error .disabled
  | .step p => sectionStep s p
  -- a process that is killed while it sleeps goes on with the loop
  | .kill p => if s.pc p = .waiting then .ok (s.goto p .beginning) else .error .disabled

/-- After `initlog`. -/
def boot : Sys where
  lh := []
  outstanding := 0
  committing := false
  pc _ := .idle
  wrote _ := ∅

def Booted (s : Sys) : Prop := s = boot

/-- Every operation gives `log_write` at most `B` distinct blocks. -/
def OpsWithin (B : ℕ) (s : Sys) : Act → Prop
  | .log_write p b => b ∈ s.wrote p ∨ (s.wrote p).card < B
  | _ => True

instance (B : ℕ) (s : Sys) (a : Act) : Decidable (OpsWithin B s a) :=
  match a with
  | .log_write p b => inferInstanceAs (Decidable (b ∈ s.wrote p ∨ (s.wrote p).card < B))
  | .begin_op _ | .end_op _ | .step _ | .kill _ => .isTrue trivial

/-! ### The room that is reserved -/

variable {B : ℕ} {s t : Sys} {a : Act} {p : Slot} {b : BlockNo} {pc : OpPc}

/-- The processes between `begin_op` and `end_op`. -/
def Sys.active (s : Sys) : Finset Slot := Finset.univ.filter fun p => (s.pc p).active

theorem Sys.mem_active : p ∈ s.active ↔ (s.pc p).active = true := by
  simp [Sys.active]

theorem Sys.active_congr (h : ∀ p, (t.pc p).active = (s.pc p).active) : t.active = s.active := by
  ext p
  rw [mem_active, mem_active, h]

/-- The moves of one process into and out of its operation. -/
theorem Sys.active_goto (s : Sys) (p : Slot) (pc : OpPc) :
    (s.goto p pc).active = if pc.active then insert p s.active else s.active.erase p := by
  ext q
  by_cases hq : q = p
  · subst hq
    cases hpc : pc.active <;> simp [mem_active, Sys.goto, hpc]
  · cases hpc : pc.active <;> simp [mem_active, Sys.goto, hq]

/-- What holds of one process: it commits only while `log.committing` is set, leaves the
header empty, adds a block that it has written, and has written at most `B`. -/
structure Fits (B : ℕ) (lh : List BlockNo) (committing : Bool) (pc : OpPc)
    (wrote : Finset BlockNo) : Prop where
  commits : pc.commits = true → committing = true
  committed : pc = .committed → lh = []
  pending : ∀ b, pc = .adding b → b ∈ wrote
  few : pc.active = true → wrote.card ≤ B

/-- The operations spend at most what they have reserved, and there is nothing in the log
when nobody is in an operation or in `commit`. -/
structure Reserved (B : ℕ) (s : Sys) : Prop where
  each : ∀ p, Fits B s.lh s.committing (s.pc p) (s.wrote p)
  alone : ∀ p q, (s.pc p).commits = true → (s.pc q).commits = true → p = q
  outstanding : s.outstanding = (s.active.card : ℤ)
  quiet : s.committing = true → s.active = ∅
  empty : s.committing = false → s.active = ∅ → s.lh = []
  room : s.lh.length + owed B s.active s.wrote s.lh ≤ nlog - 2

/-- A process outside of every operation and of `commit`. -/
theorem Fits.of_outside {lh : List BlockNo} {c : Bool} {w : Finset BlockNo}
    (h : pc.active = false) (h' : pc.commits = false) : Fits B lh c pc w where
  commits hp := absurd (h'.symm.trans hp) (by decide)
  committed hp := by subst hp; cases h'
  pending b hp := by subst hp; cases h
  few hp := absurd (h.symm.trans hp) (by decide)

/-- A property of every process, after a change to one of them. -/
theorem forall_of_update {Q : Slot → Prop} (p : Slot) (hp : Q p) (hq : ∀ q, q ≠ p → Q q) :
    ∀ q, Q q := by
  intro q
  by_cases h : q = p
  · rw [h]
    exact hp
  · exact hq q h

namespace Reserved

theorem boot : Reserved B boot := by
  have hact : Reservation.boot.active = ∅ := by
    simp [Sys.active, Reservation.boot, OpPc.active]
  constructor
  case each => exact fun p => .of_outside rfl rfl
  case alone => exact fun p q hp => nomatch hp
  case outstanding =>
    rw [hact]
    rfl
  case quiet => exact fun _ => hact
  case empty => exact fun _ _ => rfl
  case room =>
    rw [hact]
    simp [owed, Reservation.boot]

/-- Nobody commits while a process is in its operation. -/
theorem not_committing (h : Reserved B s) (hp : (s.pc p).active = true) :
    s.committing = false := by
  cases hc : s.committing
  · rfl
  · have := h.quiet hc ▸ Sys.mem_active.2 hp
    simp at this

theorem not_commits (h : Reserved B s) (hc : s.committing = false) (q : Slot) :
    (s.pc q).commits = false := by
  cases hq : (s.pc q).commits
  · rfl
  · exact absurd (hc.symm.trans ((h.each q).commits hq)) (by decide)

/-- Only a process that moves there can commit. -/
theorem eq_of_commits (h : Reserved B s) (hc : s.committing = false) {q : Slot}
    (hq : (Function.update s.pc p pc q).commits = true) : q = p := by
  by_contra hqp
  rw [Function.update_of_ne hqp, h.not_commits hc q] at hq
  cases hq

/-- Moves of the processes that are in no operation and not in `commit`. -/
theorem move (h : Reserved B s) {pc : Slot → OpPc}
    (hpc : ∀ p, pc p = s.pc p ∨ (s.pc p).active = false ∧ (s.pc p).commits = false ∧
      (pc p).active = false ∧ (pc p).commits = false) :
    Reserved B { s with pc := pc } := by
  have hact : Sys.active { s with pc := pc } = s.active := by
    apply Sys.active_congr
    intro p
    change (pc p).active = (s.pc p).active
    rcases hpc p with hp | ⟨hp, -, hp', -⟩
    · rw [hp]
    · rw [hp, hp']
  have hcom : ∀ p, (pc p).commits = (s.pc p).commits := by
    intro p
    rcases hpc p with hp | ⟨-, hp, -, hp'⟩
    · rw [hp]
    · rw [hp, hp']
  constructor
  case each =>
    intro p
    rcases hpc p with hp | ⟨-, -, hp, hp'⟩
    · change Fits B s.lh s.committing (pc p) (s.wrote p)
      rw [hp]
      exact h.each p
    · exact .of_outside hp hp'
  case alone =>
    intro p q hp hq
    exact h.alone p q ((hcom p).symm.trans hp) ((hcom q).symm.trans hq)
  case outstanding => rw [hact]; exact h.outstanding
  case quiet => rw [hact]; exact h.quiet
  case empty => rw [hact]; exact h.empty
  case room => rw [hact]; exact h.room

theorem goto (h : Reserved B s) (hp : (s.pc p).active = false) (hp' : (s.pc p).commits = false)
    (hpc : pc.active = false) (hpc' : pc.commits = false) : Reserved B (s.goto p pc) := by
  apply h.move
  intro q
  rw [Function.update_apply]
  split_ifs with hq
  · rw [hq]
    exact .inr ⟨hp, hp', hpc, hpc'⟩
  · exact .inl rfl

theorem wakeup (h : Reserved B s) : Reserved B s.wakeup := by
  apply h.move
  intro q
  split_ifs with hq
  · rw [hq]
    exact .inr ⟨rfl, rfl, rfl, rfl⟩
  · exact .inl rfl

/-- An operation starts within the reservation: with others under way one block of the
log is left over for each of them, and without others the log is empty. -/
theorem enter (h : Reserved B s) (hB : B < MAXOPBLOCKS) (hp : s.pc p = .beginning)
    (hc : s.committing = false)
    (hn : s.lh.length + (s.outstanding + 1) * MAXOPBLOCKS ≤ LOGSIZE) :
    Reserved B ({ s with
      outstanding := s.outstanding + 1
      wrote := Function.update s.wrote p ∅ }.goto p .running) := by
  have hact := Sys.active_goto { s with
    outstanding := s.outstanding + 1
    wrote := Function.update s.wrote p ∅ } p .running
  change _ = insert p s.active at hact
  have hcard : (insert p s.active).card = s.active.card + 1 :=
    Finset.card_insert_of_notMem (by simp [Sys.mem_active, hp, OpPc.active])
  have hout := h.outstanding
  constructor
  case each =>
    refine forall_of_update p ?_ ?_
    · simp only [Sys.goto, Function.update_self]
      exact ⟨nofun, nofun, nofun, fun _ => Nat.zero_le _⟩
    · intro q hq
      simp only [Sys.goto, Function.update_of_ne hq]
      exact h.each q
  case alone => exact fun q r hq hr => (h.eq_of_commits hc hq).trans (h.eq_of_commits hc hr).symm
  case outstanding =>
    rw [hact, hcard]
    simp only [Sys.goto, hout]
    omega
  case quiet => exact fun h' => absurd (hc.symm.trans h') (by decide)
  case empty => exact fun _ he => absurd (hact.symm.trans he) (Finset.insert_ne_empty _ _)
  case room =>
    rw [hact]
    have hle := owed_le B (insert p s.active) (Function.update s.wrote p ∅) s.lh
    have hmul : (s.active.card + 1) * B ≤ (s.active.card + 1) * (MAXOPBLOCKS - 1) :=
      Nat.mul_le_mul_left _ (by omega)
    rw [hcard] at hle
    simp only [Sys.goto, nlog, LOGSIZE, MAXOPBLOCKS] at hn hmul ⊢
    rcases Finset.eq_empty_or_nonempty s.active with he | hne
    · have hl : s.lh = [] := h.empty hc he
      simp only [he, Finset.card_empty, hl, List.length_nil] at hmul hle ⊢
      omega
    · have hpos := hne.card_pos
      omega

theorem beginOp (h : Reserved B s) (hB : B < MAXOPBLOCKS) (hp : s.pc p = .beginning) :
    Reserved B (s.beginOp p) := by
  unfold Sys.beginOp
  split_ifs with hc hn
  · exact h.goto (by rw [hp]; rfl) (by rw [hp]; rfl) rfl rfl
  · exact h.goto (by rw [hp]; rfl) (by rw [hp]; rfl) rfl rfl
  · exact h.enter hB hp (Bool.eq_false_of_not_eq_true hc) (not_lt.1 hn)

/-- The tests of `log_write` leave the log as it is and name one more block. -/
theorem logWrite (h : Reserved B s) (hp : s.pc p = .running)
    (hg : OpsWithin B s (.log_write p b)) (ht : s.logWrite p b = .ok t) : Reserved B t := by
  have hpa : (s.pc p).active = true := by rw [hp]; rfl
  have hc := h.not_committing hpa
  unfold Sys.logWrite at ht
  split at ht
  next => cases ht
  next =>
    cases ht
    have hact := Sys.active_goto { s with
      wrote := Function.update s.wrote p (insert b (s.wrote p)) } p (.adding b)
    change _ = insert p s.active at hact
    rw [Finset.insert_eq_of_mem (Sys.mem_active.2 hpa)] at hact
    constructor
    case each =>
      refine forall_of_update p ?_ ?_
      · simp only [Sys.goto, Function.update_self]
        refine ⟨nofun, nofun, fun b' hb => ?_, fun _ => ?_⟩
        · cases hb
          exact Finset.mem_insert_self _ _
        · rcases hg with hb | hb
          · rw [Finset.insert_eq_of_mem hb]
            exact (h.each p).few hpa
          · exact (Finset.card_insert_le _ _).trans hb
      · intro q hq
        simp only [Sys.goto, Function.update_of_ne hq]
        exact h.each q
    case alone => exact fun q r hq hr => (h.eq_of_commits hc hq).trans (h.eq_of_commits hc hr).symm
    case outstanding => rw [hact]; exact h.outstanding
    case quiet => exact fun h' => absurd (hc.symm.trans h') (by decide)
    case empty => rw [hact]; exact h.empty
    case room =>
      rw [hact]
      refine le_trans (Nat.add_le_add_left (owed_anti (fun q _ => ?_) (List.Subset.refl _)) _)
        h.room
      simp only [Sys.goto, Function.update_apply]
      split_ifs with hq
      · rw [hq]
        exact Finset.subset_insert _ _
      · exact Finset.Subset.refl _

/-- The operation pays for the block it adds. -/
theorem logAdd (h : Reserved B s) (hp : s.pc p = .adding b) (ht : s.logAdd p b = .ok t) :
    Reserved B t := by
  have hpa : (s.pc p).active = true := by rw [hp]; rfl
  have hc := h.not_committing hpa
  unfold Sys.logAdd at ht
  split at ht
  next => cases ht
  next lh hlh =>
    cases ht
    have hact := Sys.active_goto { s with lh := lh } p .running
    change _ = insert p s.active at hact
    rw [Finset.insert_eq_of_mem (Sys.mem_active.2 hpa)] at hact
    constructor
    case each =>
      refine forall_of_update p ?_ ?_
      · simp only [Sys.goto, Function.update_self]
        exact ⟨nofun, nofun, nofun, fun _ => (h.each p).few hpa⟩
      · intro q hq
        simp only [Sys.goto, Function.update_of_ne hq]
        refine ⟨(h.each q).commits, fun hq' => ?_, (h.each q).pending, (h.each q).few⟩
        have := h.not_commits hc q
        rw [hq'] at this
        cases this
    case alone => exact fun q r hq hr => (h.eq_of_commits hc hq).trans (h.eq_of_commits hc hr).symm
    case outstanding => rw [hact]; exact h.outstanding
    case quiet => exact fun h' => absurd (hc.symm.trans h') (by decide)
    case empty =>
      intro _ he
      rw [hact] at he
      exact absurd (he ▸ Sys.mem_active.2 hpa) (Finset.notMem_empty p)
    case room =>
      rw [hact]
      rcases logWriteAdd_ok hlh with ⟨-, rfl⟩ | ⟨hb, -, rfl⟩
      · exact h.room
      · exact (length_add_owed_append (Sys.mem_active.2 hpa) ((h.each p).pending b hp) hb
          ((h.each p).few hpa)).trans h.room

/-- An operation ends; the last one goes on to `commit`. -/
theorem leave (h : Reserved B s) (hp : s.pc p = .running) {c : Bool}
    (hc : c = true ↔ s.active.erase p = ∅) (hpc : pc.active = false)
    (hpc' : pc.commits = true → c = true) (hne : pc ≠ .committed) :
    Reserved B ({ s with outstanding := s.outstanding - 1, committing := c }.goto p pc) := by
  have hpa : p ∈ s.active := Sys.mem_active.2 (by rw [hp]; rfl)
  have hnc := h.not_committing (Sys.mem_active.1 hpa)
  have hact := Sys.active_goto { s with outstanding := s.outstanding - 1, committing := c } p pc
  rw [hpc] at hact
  change _ = s.active.erase p at hact
  constructor
  case each =>
    refine forall_of_update p ?_ ?_
    · simp only [Sys.goto, Function.update_self]
      refine ⟨hpc', fun h' => absurd h' hne, fun b hb => ?_, fun h' => ?_⟩
      · subst hb
        cases hpc
      · exact absurd (hpc.symm.trans h') (by decide)
    · intro q hq
      simp only [Sys.goto, Function.update_of_ne hq]
      refine ⟨fun hq' => ?_, (h.each q).committed, (h.each q).pending, (h.each q).few⟩
      exact absurd ((h.not_commits hnc q).symm.trans hq') (by decide)
  case alone => exact fun q r hq hr => (h.eq_of_commits hnc hq).trans (h.eq_of_commits hnc hr).symm
  case outstanding =>
    rw [hact, Finset.card_erase_of_mem hpa]
    simp only [Sys.goto, h.outstanding]
    have := Finset.card_pos.2 ⟨p, hpa⟩
    omega
  case quiet => exact fun h' => hact.trans (hc.1 h')
  case empty =>
    intro hf he
    exact absurd (hf.symm.trans (hc.2 (hact.symm.trans he))) (by decide)
  case room =>
    rw [hact]
    exact (Nat.add_le_add_left (owed_subset (Finset.erase_subset _ _)) _).trans h.room

theorem endOp (h : Reserved B s) (hp : s.pc p = .running) (ht : s.endOp p = .ok t) :
    Reserved B t := by
  have hpa : p ∈ s.active := Sys.mem_active.2 (by rw [hp]; rfl)
  have hcard := Finset.card_erase_of_mem hpa
  have hpos := Finset.card_pos.2 ⟨p, hpa⟩
  have hout := h.outstanding
  have hzero : s.outstanding - 1 = 0 ↔ s.active.erase p = ∅ := by
    rw [← Finset.card_eq_zero]
    omega
  unfold Sys.endOp at ht
  split_ifs at ht with hc ho
  · cases ht
    exact h.leave hp (by simp [hzero.1 ho]) rfl (fun _ => rfl) nofun
  · cases ht
    have hidle : Reserved B ({ s with
        outstanding := s.outstanding - 1
        committing := s.committing }.goto p .idle) :=
      h.leave hp (by simp [hc, ← hzero, ho]) rfl nofun nofun
    exact hidle.wakeup

/-- `commit` empties the log; nobody else is in it. -/
theorem commit (h : Reserved B s) (hp : s.pc p = .committing) :
    Reserved B ({ s with lh := [] }.goto p .committed) := by
  have hpc : (s.pc p).commits = true := by rw [hp]; rfl
  have hc := (h.each p).commits hpc
  have he := h.quiet hc
  have hact := Sys.active_goto { s with lh := [] } p .committed
  change _ = s.active.erase p at hact
  rw [he, Finset.erase_empty] at hact
  constructor
  case each =>
    refine forall_of_update p ?_ ?_
    · simp only [Sys.goto, Function.update_self]
      exact ⟨fun _ => hc, fun _ => rfl, nofun, nofun⟩
    · intro q hq
      simp only [Sys.goto, Function.update_of_ne hq]
      exact ⟨(h.each q).commits, fun _ => rfl, (h.each q).pending, (h.each q).few⟩
  case alone =>
    have hsame : ∀ q, (Function.update s.pc p .committed q).commits = (s.pc q).commits := by
      refine forall_of_update p ?_ ?_
      · rw [Function.update_self, hpc]
        rfl
      · exact fun q hq => by rw [Function.update_of_ne hq]
    intro q r hq hr
    exact h.alone q r ((hsame q).symm.trans hq) ((hsame r).symm.trans hr)
  case outstanding =>
    rw [hact]
    exact h.outstanding.trans (by rw [he])
  case quiet => exact fun _ => hact
  case empty => exact fun _ _ => rfl
  case room =>
    rw [hact]
    simp [owed, Sys.goto]

/-- The log is free for the next operation. -/
theorem finish (h : Reserved B s) (hp : s.pc p = .committed) :
    Reserved B ({ s with committing := false }.goto p .idle) := by
  have hpc : (s.pc p).commits = true := by rw [hp]; rfl
  have he := h.quiet ((h.each p).commits hpc)
  have hact := Sys.active_goto { s with committing := false } p .idle
  change _ = s.active.erase p at hact
  rw [he, Finset.erase_empty] at hact
  constructor
  case each =>
    refine forall_of_update p ?_ ?_
    · simp only [Sys.goto, Function.update_self]
      exact .of_outside rfl rfl
    · intro q hq
      simp only [Sys.goto, Function.update_of_ne hq]
      refine ⟨fun hq' => absurd (h.alone q p hq' hpc) hq, (h.each q).committed,
        (h.each q).pending, (h.each q).few⟩
  case alone =>
    refine forall_of_update p ?_ ?_
    · simp [Sys.goto, OpPc.commits]
    · intro q hq r hq'
      simp only [Sys.goto, Function.update_of_ne hq] at hq'
      exact absurd (h.alone q p hq' hpc) hq
  case outstanding =>
    rw [hact]
    exact h.outstanding.trans (by rw [he])
  case quiet => exact fun _ => hact
  case empty => exact fun _ _ => (h.each p).committed hp
  case room =>
    rw [hact]
    simp [owed, Sys.goto, (h.each p).committed hp]

theorem section_step (h : Reserved B s) (hB : B < MAXOPBLOCKS) (ht : sectionStep s p = .ok t) :
    Reserved B t := by
  unfold sectionStep at ht
  split at ht
  next hp =>
    cases ht
    exact h.beginOp hB hp
  next b hp => exact h.logAdd hp ht
  next hp =>
    cases ht
    exact h.commit hp
  next hp =>
    cases ht
    exact (h.finish hp).wakeup
  all_goals cases ht

theorem step (h : Reserved B s) (hB : B < MAXOPBLOCKS) (hg : OpsWithin B s a)
    (ht : Reservation.step s a = .ok t) : Reserved B t := by
  cases a with
  | begin_op p =>
    simp only [Reservation.step] at ht
    split_ifs at ht with hp
    cases ht
    exact h.goto (by rw [hp]; rfl) (by rw [hp]; rfl) rfl rfl
  | log_write p b =>
    simp only [Reservation.step] at ht
    split_ifs at ht with hp
    exact h.logWrite hp hg ht
  | end_op p =>
    simp only [Reservation.step] at ht
    split_ifs at ht with hp
    exact h.endOp hp ht
  | step p => exact h.section_step hB ht
  | kill p =>
    simp only [Reservation.step] at ht
    split_ifs at ht with hp
    cases ht
    exact h.goto (by rw [hp]; rfl) (by rw [hp]; rfl) rfl rfl

end Reserved

theorem reserved (hB : B < MAXOPBLOCKS) (hs : Reach step (OpsWithin B) Booted s) : Reserved B s :=
  hs.invariant (fun _ h => h ▸ .boot) fun _ _ _ h hg ht => h.step hB hg ht

/-- Only the test of `log_write` panics so, on a log that has no room left. -/
theorem step_tooBig (h : step s a = .error (.panic "too big a transaction")) :
    nlog - 1 ≤ s.lh.length := by
  cases a with
  | log_write p b =>
    simp only [step] at h
    split_ifs at h with hp
    · unfold Sys.logWrite at h
      split at h
      next e he =>
        cases h
        exact logWriteTest_tooBig he
      next => cases h
    · simp at h
  | begin_op p =>
    simp only [step] at h
    split_ifs at h
    simp at h
  | end_op p =>
    simp only [step, Sys.endOp] at h
    split_ifs at h <;> simp at h
  | step p =>
    simp only [step, sectionStep, Sys.logAdd, logWriteAdd] at h
    split at h
    case h_2 => split_ifs at h; simp at h
    all_goals simp at h
  | kill p =>
    simp only [step] at h
    split_ifs at h
    simp at h

/-! ### Operations that use all they have reserved -/

/-- Process `p` writes `n` blocks from `b` on. -/
def writes (p : Slot) (b n : ℕ) : List Act :=
  (List.range n).flatMap fun i => [.log_write p (.ofNat (b + i)), .step p]

/-- Three operations begin and write `MAXOPBLOCKS` blocks each, up to the last block. -/
def fullRun : List Act :=
  ([0, 1, 2] : List Slot).flatMap (fun p => [.begin_op p, .step p]) ++
    writes 0 100 10 ++ writes 1 200 10 ++ writes 2 300 9

theorem fullRun_tooBig : ∃ s, Reach step (OpsWithin MAXOPBLOCKS) Booted s ∧
    OpsWithin MAXOPBLOCKS s (.log_write 2 309) ∧
    step s (.log_write 2 309) = .error (.panic "too big a transaction") := by
  have hboot : Reach step (OpsWithin MAXOPBLOCKS) Booted boot := .start rfl
  obtain ⟨s, hs, ht⟩ := hboot.of_endsIn
    (fun s => decide (OpsWithin MAXOPBLOCKS s (.log_write 2 309)) &&
      match step s (.log_write 2 309) with
      | .error f => decide (f = .panic "too big a transaction")
      | .ok _ => false)
    fullRun (by decide +kernel)
  rw [Bool.and_eq_true, decide_eq_true_eq] at ht
  refine ⟨s, hs, ht.1, ?_⟩
  have h := ht.2
  split at h
  next f hf => rw [hf, of_decide_eq_true h]
  next => cases h

/-- The last block of the third operation finds the log full. -/
theorem full_reservation_panics : ¬ ∀ s a, Reach step (OpsWithin MAXOPBLOCKS) Booted s →
    OpsWithin MAXOPBLOCKS s a → step s a ≠ .error (.panic "too big a transaction") := by
  intro h
  obtain ⟨s, hs, hg, ht⟩ := fullRun_tooBig
  exact h s _ hs hg ht

/-- Operations of at most `B` distinct blocks never make `log_write` panic exactly when
`B` is below `MAXOPBLOCKS`: the header takes one of the `LOGSIZE` blocks that `mkfs` gives
to the log. -/
theorem never_tooBig_iff (B : ℕ) :
    (∀ s a, Reach step (OpsWithin B) Booted s → OpsWithin B s a →
      step s a ≠ .error (.panic "too big a transaction")) ↔ B < MAXOPBLOCKS := by
  constructor
  · intro h
    by_contra hB
    obtain ⟨s, hs, hg, ht⟩ := fullRun_tooBig
    have hmono : ∀ s a, OpsWithin MAXOPBLOCKS s a → OpsWithin B s a := by
      intro s a hg
      cases a with
      | log_write p b => exact hg.imp_right fun h => h.trans_le (not_lt.1 hB)
      | _ => trivial
    exact h s _ (hs.mono hmono) (hmono s _ hg) ht
  · intro hB s a hs hg ht
    have hroom := (reserved hB hs).room
    have hfull := step_tooBig ht
    simp only [nlog, LOGSIZE, MAXOPBLOCKS] at hroom hfull
    omega

end Reservation

end Xv6Container.Log
