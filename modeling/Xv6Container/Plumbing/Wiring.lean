import Xv6Container.Plumbing.Calls
import Xv6Container.Plumbing.Wires

/-! The invariant of a shell: every process stands at a stage of a node and has the descriptors that
belong there, nodes that are still to be run belong to one process each, and children are where their
parents have left them. -/

namespace Xv6Container.Plumbing

open Function Names
open Files (Between Tabled Page)

variable {X U : Type} {lines : List (List Char)} {m m' : Machine X} {p q : Slot} {x x' : X}
  {T : Fd → Option FileId} {W : Fd → Option Wire} {σ σ' τ : Path} {st st' str : Stage} {w : Wire}

/-! ### What is ahead, and children -/

/-- The nodes that a process or its children may still come to. -/
def todo (σ : Path) : Stage → Set Path
  | .main k => {τ | ∃ j, k ≤ j ∧ [j] <:+ τ}
  | .mainWait k => {τ | ∃ j, k < j ∧ [j] <:+ τ}
  | .run | .opens | .plumbClose _ | .plumbDup _ | .plumbClose0 | .plumbClose1 => {τ | σ <:+ τ}
  | .listWait | .pipeRight => {τ | 1 :: σ <:+ τ}
  | .pipeLeft => {τ | 0 :: σ <:+ τ ∨ 1 :: σ <:+ τ}
  | _ => ∅

/-- The number of children, at most. -/
def maxKids : Stage → ℕ
  | .mainWait _ | .listWait | .pipeRight | .wait1 => 1
  | .close0 | .close1 | .wait2 => 2
  | .leaving | .user => NPROC
  | _ => 0

theorem maxKids_le (st : Stage) : maxKids st ≤ NPROC := by
  cases st with
  | leaving | user => exact le_refl NPROC
  | mainWait | listWait | pipeRight | wait1 | close0 | close1 | wait2 =>
    simp only [maxKids, NPROC]
    decide
  | _ => exact Nat.zero_le NPROC

/-- A process at `σ` and `st` can have a child at `τ` and `st'`. -/
def KidAt (σ : Path) (st : Stage) (τ : Path) (st' : Stage) : Prop :=
  match st with
  | .mainWait k => [k] <:+ τ
  | .listWait => 0 :: σ <:+ τ
  | .pipeRight | .close0 | .close1 | .wait2 | .wait1 => 0 :: σ <:+ τ ∨ 1 :: σ <:+ τ
  | .leaving => True
  | .user => τ = σ ∧ st' = .user
  | _ => False

/-- A child goes on. -/
theorem KidAt.advances (h : KidAt τ str σ st) (hdeeper : σ <:+ σ')
    (huser : st = .user → σ' = σ ∧ st' = .user) : KidAt τ str σ' st' := by
  cases str with
  | user =>
    obtain ⟨rfl, hst⟩ := h
    exact huser hst
  | mainWait | listWait => exact List.IsSuffix.trans h hdeeper
  | pipeRight | close0 | close1 | wait2 | wait1 =>
    exact h.imp (fun h => h.trans hdeeper) fun h => h.trans hdeeper
  | leaving => trivial
  | _ => exact h

/-! ### The invariant -/

/-- Where the wires end, where the processes are, and what their descriptors should lead to. -/
structure Wiring where
  file : Wire → FileId
  page : Path → Page
  place : Slot → Path
  stage : Slot → Stage
  wires : Slot → Fd → Option Wire

/-- A process has moved on. -/
def Wiring.move (g : Wiring) (p : Slot) (σ : Path) (st : Stage) (W : Fd → Option Wire) : Wiring :=
  { g with
    place := update g.place p σ
    stage := update g.stage p st
    wires := update g.wires p W }

/-- Where a process is. -/
structure Wiring.At (g : Wiring) (p : Slot) (σ : Path) (st : Stage) (W : Fd → Option Wire) :
    Prop where
  place : g.place p = σ
  stage : g.stage p = st
  wires : g.wires p = W

variable {g g' : Wiring}

/-- Some process has the wire. -/
def Holds (g : Wiring) (m : Machine X) (w : Wire) : Prop :=
  ∃ p x fd, m.task p = some x ∧ g.wires p fd = some w

/-- The file of a wire is what it should be. -/
def Denotes (g : Wiring) (s : Files.State) : Wire → Prop
  | .pipe σ b => s.endOf (g.file (.pipe σ b)) = some (g.page σ, b)
  | w => s.pipe (g.file w) = none

/-- The descriptors lead where the wiring says. -/
structure Wired (g : Wiring) (m : Machine X) : Prop where
  between : Between m.files
  sided : Files.Sided m.files
  cwd : ∀ p x, m.task p = some x → (m.files.fs.proc p).cwd.isSome
  table : ∀ p x, m.task p = some x → m.files.table p = fun fd => (g.wires p fd).map g.file
  denotes : ∀ w, Holds g m w → Denotes g m.files w
  inj : ∀ σ τ b c, Holds g m (.pipe σ b) → Holds g m (.pipe τ c) → g.page σ = g.page τ → σ = τ
  outside : ∀ p, m.task p = none → ∀ fd f, m.files.table p fd = some f → m.files.pipe f = none
  own : ∀ f, g.file (.own f) = f

/-- The processes stand where the wiring says, and what they still come to is made by one of them
only. -/
structure Placed (lines : List (List Char)) (g : Wiring) (m : Machine (Task U)) : Prop where
  stands : ∀ p x, m.task p = some x → Stands lines (g.place p) (g.wires p) (g.stage p) x
  apart : ∀ p q x y, m.task p = some x → m.task q = some y → p ≠ q →
    ∀ n ∈ todo (g.place p) (g.stage p), n ∉ todo (g.place q) (g.stage q)
  made : ∀ p x w n, m.task p = some x → Holds g m w → w.node = some n →
    n ∉ todo (g.place p) (g.stage p)

/-- The children of a process. -/
def kids (m : Machine X) (p : Slot) : Finset Slot := {q | m.parent q = some p}

structure Family (g : Wiring) (m : Machine X) : Prop where
  alive : ∀ p q, m.parent q = some p → (m.task p).isSome ∧ (m.task q = none → m.zombie q = true)
  few : ∀ p x, m.task p = some x → (kids m p).card ≤ maxKids (g.stage p)
  kidAt : ∀ p q x y, m.parent q = some p → m.task p = some x → m.task q = some y →
    KidAt (g.place p) (g.stage p) (g.place q) (g.stage q)
  pid : ∀ p q, m.parent q = some p → m.pid p < m.pid q
  fresh : ∀ p x, m.task p = some x → m.pid p < m.nextpid
  positive : 0 < m.nextpid

/-! ### One process goes on -/

theorem Wired.held (h : Wired g m) (hw : Holds g m w) :
    ∃ p x fd, m.task p = some x ∧ m.files.table p fd = some (g.file w) := by
  obtain ⟨p, x, fd, hp, hfd⟩ := hw
  exact ⟨p, x, fd, hp, (congrFun (h.table p x hp) fd).trans (congrArg (Option.map g.file) hfd)⟩

/-- The page of a pipe that somebody has is a pipe. -/
theorem Wired.pipes (h : Wired g m) {b : Bool} (hw : Holds g m (.pipe σ b)) :
    m.files.pipes (g.page σ) ≠ none := by
  obtain ⟨-, c, hc⟩ := h.between.filed.open_end (h.denotes _ hw)
  rw [hc]
  rintro ⟨⟩

/-- A file that stays in use denotes what it did. -/
theorem Denotes.same (h : Denotes g m.files w) (hsame : Files.Same m.files m'.files (g.file w))
    (hfile : g'.file w = g.file w) (hpage : ∀ σ b, w = .pipe σ b → g'.page σ = g.page σ) :
    Denotes g' m'.files w := by
  cases w with
  | pipe σ b =>
    change m.files.endOf (g.file (.pipe σ b)) = some (g.page σ, b) at h
    change m'.files.endOf (g'.file (.pipe σ b)) = some (g'.page σ, b)
    rw [hfile, hpage σ b rfl, hsame.endOf, h]
  | _ =>
    change m.files.pipe _ = none at h
    change m'.files.pipe _ = none
    rw [hfile, hsame.2.1, h]

/-- A wire that has just been made; a pipe is that of `σ`, on a page that nobody had. -/
def New (g g' : Wiring) (m m' : Machine X) (σ : Path) (w : Wire) : Prop :=
  Denotes g' m'.files w ∧ ∀ τ b, w = .pipe τ b →
    τ = σ ∧ ∀ τ' c, Holds g m (.pipe τ' c) → g.page τ' ≠ g'.page σ

theorem Wired.goes (h : Wired g m) (ν : Path) (hx : m.task p = some x) (hgo : Goes p T x' m m')
    (hT : T = fun fd => (W fd).map g'.file) (hwires : g'.wires = update g.wires p W)
    (hfile : ∀ w, Holds g m w → g'.file w = g.file w)
    (hpage : ∀ τ b, Holds g m (.pipe τ b) → g'.page τ = g.page τ)
    (hown : ∀ f, g'.file (.own f) = f)
    (hnew : ∀ fd w, W fd = some w → Holds g m w ∨ New g g' m m' ν w) : Wired g' m' := by
  have hother : ∀ r, r ≠ p → m'.task r = m.task r := fun r hr => by
    rw [hgo.task, update_of_ne hr]
  have htable : ∀ r y, m'.task r = some y → m'.files.table r =
      fun fd => (g'.wires r fd).map g'.file := by
    intro r y hy
    by_cases hr : r = p
    · rw [hr, hgo.files.table, hT, hwires, update_self]
    · rw [hother r hr] at hy
      rw [hgo.files.other_table hr, h.table r y hy, hwires, update_of_ne hr]
      funext fd
      cases hfd : g.wires r fd with
      | none => rfl
      | some w => exact congrArg some (hfile w ⟨r, y, fd, hy, hfd⟩).symm
  have hheld : ∀ w, Holds g' m' w → (∃ r fd, m'.files.table r fd = some (g'.file w)) ∧
      (Holds g m w ∨ New g g' m m' ν w) := by
    rintro w ⟨r, y, fd, hy, hfd⟩
    refine ⟨⟨r, fd, ?_⟩, ?_⟩
    · exact (congrFun (htable r y hy) fd).trans (congrArg (Option.map g'.file) hfd)
    · by_cases hr : r = p
      · rw [hr, hwires, update_self] at hfd
        exact hnew fd w hfd
      · rw [hother r hr] at hy
        rw [hwires, update_of_ne hr] at hfd
        exact .inl ⟨r, y, fd, hy, hfd⟩
  refine ⟨hgo.files.between, hgo.sided h.sided, fun r y hy => ?_, htable, fun w hw => ?_, ?_, ?_, hown⟩
  · by_cases hr : r = p
    · rw [hr]
      exact hgo.files.cwd
    · rw [hother r hr] at hy
      rw [hgo.files.other r hr]
      exact h.cwd r y hy
  · obtain ⟨⟨r, fd, hr⟩, hold | hnew⟩ := hheld w hw
    · obtain ⟨q, y, fd', -, hq⟩ := h.held hold
      rw [hfile w hold] at hr
      refine (h.denotes w hold).same (hgo.files.held h.between hq hr) (hfile w hold) ?_
      rintro τ b rfl
      exact hpage τ b hold
    · exact hnew.1
  · intro τ τ' b c hτ hτ' heq
    obtain ⟨-, hold | hnew⟩ := hheld _ hτ
    · obtain ⟨-, hold' | hnew'⟩ := hheld _ hτ'
      · rw [hpage τ b hold, hpage τ' c hold'] at heq
        exact h.inj τ τ' b c hold hold' heq
      · obtain ⟨rfl, hfresh⟩ := hnew'.2 τ' c rfl
        rw [hpage τ b hold] at heq
        exact absurd heq (hfresh τ b hold)
    · obtain ⟨rfl, hfresh⟩ := hnew.2 τ b rfl
      obtain ⟨-, hold' | hnew'⟩ := hheld _ hτ'
      · rw [hpage τ' c hold'] at heq
        exact absurd heq.symm (hfresh τ' c hold')
      · exact (hnew'.2 τ' c rfl).1.symm
  · intro r hr fd f hf
    have hne : r ≠ p := by
      rintro rfl
      rw [hgo.task, update_self] at hr
      cases hr
    rw [hother r hne] at hr
    have hf' := hf
    rw [hgo.files.other_table hne] at hf'
    rw [(hgo.files.held h.between hf' hf).2.1]
    exact h.outside r hr fd f hf'

section Shell

variable {n n' : Machine (Task U)} {y y' : Task U}

theorem Placed.goes (h : Placed lines g n) (hy : n.task p = some y)
    (htask : n'.task = update n.task p (some y')) (hplace : g'.place = update g.place p σ')
    (hstage : g'.stage = update g.stage p st') (hwires : g'.wires = update g.wires p W)
    (hstands : Stands lines σ' W st' y')
    (htodo : todo σ' st' ⊆ todo (g.place p) (g.stage p))
    (hnew : ∀ fd w τ, W fd = some w → w.node = some τ → Holds g n w ∨
      τ ∈ todo (g.place p) (g.stage p) ∧ τ ∉ todo σ' st') : Placed lines g' n' := by
  have hother : ∀ r, r ≠ p → n'.task r = n.task r := fun r hr => by
    rw [htask, update_of_ne hr]
  have hself : ∀ z, n'.task p = some z → z = y' := by
    intro z hz
    rw [htask, update_self] at hz
    exact (Option.some.inj hz).symm
  have htodo' : ∀ r, todo (g'.place r) (g'.stage r) ⊆ todo (g.place r) (g.stage r) := by
    intro r
    rw [hplace, hstage]
    by_cases hr : r = p
    · rw [hr, update_self, update_self]
      exact htodo
    · rw [update_of_ne hr, update_of_ne hr]
  have hlive : ∀ r z, n'.task r = some z → ∃ z, n.task r = some z := by
    intro r z hz
    by_cases hr : r = p
    · exact ⟨y, hr ▸ hy⟩
    · exact ⟨z, hother r hr ▸ hz⟩
  refine ⟨fun r z hz => ?_, fun r q z z' hz hz' hne τ hτ hτ' => ?_, fun r z w τ hz hw hτ hin => ?_⟩
  · by_cases hr : r = p
    · subst hr
      obtain rfl := hself z hz
      rw [hplace, hstage, hwires, update_self, update_self, update_self]
      exact hstands
    · rw [hother r hr] at hz
      rw [hplace, hstage, hwires, update_of_ne hr, update_of_ne hr, update_of_ne hr]
      exact h.stands r z hz
  · obtain ⟨_, hz⟩ := hlive r z hz
    obtain ⟨_, hz'⟩ := hlive q z' hz'
    exact h.apart r q _ _ hz hz' hne τ (htodo' r hτ) (htodo' q hτ')
  · obtain ⟨q, z', fd, hz', hfd⟩ := hw
    obtain ⟨z₀, hz₀⟩ := hlive r z hz
    obtain ⟨z₁, hz₁⟩ := hlive q z' hz'
    by_cases hq : q = p
    · subst hq
      rw [hwires, update_self] at hfd
      obtain hold | ⟨hahead, hdone⟩ := hnew fd w τ hfd hτ
      · exact h.made r z₀ w τ hz₀ hold hτ (htodo' r hin)
      · by_cases hr : r = q
        · subst hr
          rw [hplace, hstage, update_self, update_self] at hin
          exact hdone hin
        · exact h.apart r q _ _ hz₀ hz₁ hr τ (htodo' r hin) hahead
    · rw [hwires, update_of_ne hq] at hfd
      exact h.made r z₀ w τ hz₀ ⟨q, z₁, fd, hz₁, hfd⟩ hτ (htodo' r hin)

end Shell

theorem Family.goes (h : Family g m) (hx : m.task p = some x)
    (htask : m'.task = update m.task p (some x')) (hzombie : m'.zombie = m.zombie)
    (hparent : m'.parent = m.parent) (hpid : m'.pid = m.pid) (hnext : m'.nextpid = m.nextpid)
    (hplace : g'.place = update g.place p σ') (hstage : g'.stage = update g.stage p st')
    (hdeeper : g.place p <:+ σ') (huser : g.stage p = .user → σ' = g.place p ∧ st' = .user)
    (hmax : (kids m p).card ≤ maxKids st')
    (hkidAt : ∀ q y, m.parent q = some p → m.task q = some y →
      KidAt σ' st' (g.place q) (g.stage q)) : Family g' m' := by
  have hother : ∀ r, r ≠ p → m'.task r = m.task r := fun r hr => by
    rw [htask, update_of_ne hr]
  have hlive : ∀ r z, m'.task r = some z → ∃ z, m.task r = some z := by
    intro r z hz
    by_cases hr : r = p
    · exact ⟨x, hr ▸ hx⟩
    · exact ⟨z, hother r hr ▸ hz⟩
  have hnot : ∀ r, m.parent r ≠ some r := fun r hr => lt_irrefl _ (h.pid r r hr)
  refine ⟨fun r q hq => ?_, fun r z hz => ?_, fun r q z z' hq hz hz' => ?_, ?_, fun r z hz => ?_, ?_⟩
  · rw [hparent] at hq
    obtain ⟨hr, hdead⟩ := h.alive r q hq
    refine ⟨?_, fun hnone => ?_⟩
    · by_cases hrp : r = p
      · rw [hrp, htask, update_self]
        rfl
      · rwa [hother r hrp]
    · have hqp : q ≠ p := by
        rintro rfl
        rw [htask, update_self] at hnone
        cases hnone
      rw [hother q hqp] at hnone
      rw [hzombie]
      exact hdead hnone
  · obtain ⟨z₀, hz₀⟩ := hlive r z hz
    rw [kids, hparent, hstage]
    by_cases hr : r = p
    · rw [hr, update_self]
      exact hmax
    · rw [update_of_ne hr]
      exact h.few r z₀ hz₀
  · rw [hparent] at hq
    obtain ⟨z₀, hz₀⟩ := hlive r z hz
    obtain ⟨z₁, hz₁⟩ := hlive q z' hz'
    rw [hplace, hstage]
    by_cases hr : r = p
    · subst hr
      have hqr : q ≠ r := by
        rintro rfl
        exact hnot q hq
      rw [update_self, update_self, update_of_ne hqr, update_of_ne hqr]
      exact hkidAt q z₁ hq hz₁
    · rw [update_of_ne hr, update_of_ne hr]
      have hkid := h.kidAt r q z₀ z₁ hq hz₀ hz₁
      by_cases hqp : q = p
      · subst hqp
        rw [update_self, update_self]
        exact hkid.advances hdeeper huser
      · rwa [update_of_ne hqp, update_of_ne hqp]
  · rw [hparent, hpid]
    exact h.pid
  · obtain ⟨z₀, hz₀⟩ := hlive r z hz
    rw [hpid, hnext]
    exact h.fresh r z₀ hz₀
  · rw [hnext]
    exact h.positive

/-- The invariant. -/
structure Inv (lines : List (List Char)) (g : Wiring) (m : Machine (Task U)) : Prop where
  wired : Wired g m
  placed : Placed lines g m
  family : Family g m

section Shell

variable {n n' : Machine (Task U)} {y y' : Task U}

/-- How a process goes on: down in the tree, and not back. -/
structure Advances (σ : Path) (st : Stage) (σ' : Path) (st' : Stage) : Prop where
  deeper : σ <:+ σ'
  user : st = .user → σ' = σ ∧ st' = .user
  todo : todo σ' st' ⊆ todo σ st
  maxKids : maxKids st ≤ maxKids st'
  kidAt : ∀ τ str, KidAt σ st τ str → KidAt σ' st' τ str

/-- A process goes on with new wires. -/
theorem Inv.makes (h : Inv lines g n) (ν : Path) (hy : n.task p = some y) (hgo : Goes p T y' n n')
    (hadv : Advances (g.place p) (g.stage p) σ' st') (hT : T = fun fd => (W fd).map g'.file)
    (hplace : g'.place = update g.place p σ') (hstage : g'.stage = update g.stage p st')
    (hwires : g'.wires = update g.wires p W)
    (hfile : ∀ w, Holds g n w → g'.file w = g.file w)
    (hpage : ∀ τ b, Holds g n (.pipe τ b) → g'.page τ = g.page τ)
    (hown : ∀ f, g'.file (.own f) = f) (hstands : Stands lines σ' W st' y')
    (hnew : ∀ fd w, W fd = some w → Holds g n w ∨ New g g' n n' ν w ∧
      ∀ τ, w.node = some τ → τ ∈ todo (g.place p) (g.stage p) ∧ τ ∉ todo σ' st') :
    Inv lines g' n' where
  wired := h.wired.goes ν hy hgo hT hwires hfile hpage hown fun fd w hw =>
    (hnew fd w hw).imp id And.left
  placed := h.placed.goes hy hgo.task hplace hstage hwires hstands hadv.todo fun fd w τ hw hτ =>
    (hnew fd w hw).imp id fun hnew => hnew.2 τ hτ
  family := h.family.goes hy hgo.task hgo.zombie hgo.parent hgo.pid hgo.nextpid hplace hstage
    hadv.deeper hadv.user ((h.family.few p y hy).trans hadv.maxKids) fun q z hq hz =>
      hadv.kidAt _ _ (h.family.kidAt p q y z hq hy hz)

/-- A process goes on with wires that it has had. -/
theorem Inv.goes (h : Inv lines g n) (hy : n.task p = some y) (hgo : Goes p T y' n n')
    (hadv : Advances (g.place p) (g.stage p) σ' st') (hT : T = fun fd => (W fd).map g.file)
    (hW : ∀ fd w, W fd = some w → ∃ fd', g.wires p fd' = some w)
    (hstands : Stands lines σ' W st' y') : Inv lines (g.move p σ' st' W) n' := by
  refine h.makes σ' hy hgo hadv hT rfl rfl rfl (fun _ _ => rfl) (fun _ _ _ => rfl)
    h.wired.own hstands fun fd w hw => ?_
  obtain ⟨fd', hfd'⟩ := hW fd w hw
  exact .inl ⟨p, y, fd', hy, hfd'⟩

end Shell

end Xv6Container.Plumbing
