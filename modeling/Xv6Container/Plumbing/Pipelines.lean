import Xv6Container.Plumbing.Progress

/-! The runs of a shell: every program starts with the descriptors that its command line gives it, and
no pipeline comes to a standstill. -/

namespace Xv6Container.Plumbing

open Function Names Lib
open Shell (nul)

variable {U : Type} {P : Programs U} {lines : List (List Char)} {g : Wiring}
  {m : Machine (Task U)} {p : Slot} {x : Task U} {σ τ : Path} {b : Bool} {fd : Fd}

/-! ### The first state -/

/-- The shell is about to read its first line. It has the descriptors 0, 1 and 2, and nobody has
made a pipe. -/
structure Started (lines : List (List Char)) (m : Machine (Task U)) : Prop where
  files : Reach Files.step always Files.Booted m.files
  noPipe : ∀ f, m.files.pipe f = none
  shell : ∃ p, m.task = update (fun _ => none) p (some (.shell (main lines))) ∧
    (m.files.fs.proc p).cwd.isSome ∧ ∀ fd, (m.files.table p fd).isSome ↔ fd.val < 3
  parent : ∀ p, m.parent p = none
  pid : ∀ p, m.pid p < m.nextpid

theorem between_of_reach {s : Files.State} (hs : Reach Files.step always Files.Booted s) :
    Files.Between s := by
  refine hs.invariant (I := Files.Between) ?_ fun _ _ _ h _ ht => (Files.step_between h ht).1
  rintro _ ⟨node, kmem, -, hlist, rfl⟩
  exact Files.boot_between hlist

/-- The wiring of the shell `p` alone. -/
def firstWiring (m : Machine (Task U)) (p : Slot) : Wiring where
  file
    | .std i => ((argfd i).bind (m.files.table p)).getD 0
    | .own f => f
    | _ => 0
  page _ := 0
  place _ := []
  stage _ := .main 0
  wires _ := standard .std

theorem Started.inv (h : Started lines m) : ∃ g, Inv lines g m := by
  obtain ⟨p, htask, hcwd, hfds⟩ := h.shell
  have honly : ∀ q x, m.task q = some x → q = p ∧ x = .shell (main lines) := by
    intro q x hx
    rw [htask] at hx
    by_cases hq : q = p
    · rw [hq, update_self] at hx
      exact ⟨hq, (Option.some.inj hx).symm⟩
    · rw [update_of_ne hq] at hx
      cases hx
  have hstd : ∀ w, Holds (firstWiring m p) m w → ∃ i, w = .std i := by
    rintro w ⟨q, x, fd, -, hw⟩
    change standard .std fd = some w at hw
    rw [standard] at hw
    split_ifs at hw
    exact ⟨fd, (Option.some.inj hw).symm⟩
  have hkids : ∀ q r, m.parent q ≠ some r := by
    intro q r hq
    rw [h.parent q] at hq
    cases hq
  refine ⟨firstWiring m p, ⟨between_of_reach h.files, fun f hf => absurd (h.noPipe f) hf,
    fun q x hx => ?_, fun q x hx => ?_, fun w hw => ?_, fun σ τ b c hσ => ?_,
    fun q _ fd f _ => h.noPipe f, fun f => rfl⟩, ⟨fun q x hx => ?_, fun q r x y hx hy hne => ?_,
    fun q x w n hx hw hn => ?_⟩, ⟨fun q r hr => absurd hr (hkids r q), fun q x hx => ?_,
    fun q r x y hr => absurd hr (hkids r q), fun q r hr => absurd hr (hkids r q),
    fun q x _ => h.pid q, (Nat.zero_le _).trans_lt (h.pid p)⟩⟩
  · obtain ⟨rfl, -⟩ := honly q x hx
    exact hcwd
  · obtain ⟨rfl, -⟩ := honly q x hx
    funext fd
    change m.files.table q fd = (standard .std fd).map _
    by_cases hfd : fd.val < 3
    · rw [standard_of_lt hfd, Option.map_some]
      change _ = some (((argfd fd).bind (m.files.table q)).getD 0)
      obtain ⟨f, hf⟩ := Option.isSome_iff_exists.1 ((hfds fd).2 hfd)
      rw [argfd_val, Option.bind_some, hf]
      rfl
    · rw [standard_of_le (Nat.le_of_not_lt hfd), Option.map_none]
      exact Option.not_isSome_iff_eq_none.1 fun hsome => hfd ((hfds fd).1 hsome)
  · obtain ⟨i, rfl⟩ := hstd w hw
    exact h.noPipe _
  · obtain ⟨i, hi⟩ := hstd _ hσ
    cases hi
  · obtain ⟨-, rfl⟩ := honly q x hx
    exact .main 0
  · exact absurd ((honly q x hx).1.trans (honly r y hy).1.symm) hne
  · obtain ⟨i, rfl⟩ := hstd w hw
    cases hn
  · have hempty : kids m q = ∅ := Finset.filter_eq_empty_iff.2 fun r _ => hkids r q
    rw [hempty]
    exact Nat.zero_le _

/-! ### Every state -/

/-- A process that runs a program, or a part of the shell that starts one or waits. -/
def Settled : Task U → Prop
  | .user _ => True
  | .shell c => c.call = .wait ∨ ∃ path argv, c.call = .exec path argv

/-- The descriptors lead where the commands say: the files of the wires are open, the pipelines have
pipes of their own, a command is started with the descriptors 0, 1 and 2 and no others, and has no end
of a pipe but those on whose side of the pipeline it is. Nothing is left of a pipe that no descriptor
leads to. -/
structure Plumbed (lines : List (List Char)) (g : Wiring) (m : Machine (Task U)) : Prop where
  table : ∀ p x, m.task p = some x → m.files.table p = fun fd => (g.wires p fd).map g.file
  denotes : ∀ w, Holds g m w → Denotes g m.files w
  apart : ∀ σ τ b c, Holds g m (.pipe σ b) → Holds g m (.pipe τ c) → g.page σ = g.page τ → σ = τ
  started : ∀ p c path argv, m.task p = some (.shell c) → c.call = .exec path argv →
    treeAt lines (g.place p) = some (.exec argv) ∧ g.wires p = standard (env lines (g.place p))
  programs : ∀ p u, m.task p = some (.user u) →
    (∃ argv, treeAt lines (g.place p) = some (.exec argv)) ∧
      Kept (env lines (g.place p)) (g.wires p)
  sides : ∀ p x fd σ b, m.task p = some x → Settled x → g.wires p fd = some (.pipe σ b) →
    side b :: σ <:+ g.place p ∧ ∃ left right, treeAt lines σ = some (.pipe left right)
  owned : ∀ pg, m.files.pipes pg ≠ none → ∃ σ b, Holds g m (.pipe σ b) ∧ g.page σ = pg

theorem runcmd_exec {t : Shell.Tree} {path : Fs.CString} {argv : List (List Char)}
    (h : (runcmd t).call = .exec path argv) : t = .exec argv := by
  cases t with
  | exec words =>
    rw [runcmd] at h
    split_ifs at h
    · cases h
    · obtain ⟨-, rfl⟩ := Call.exec.inj h
      rfl
  | _ => cases h

theorem main_ne_exec {path : Fs.CString} {argv : List (List Char)} :
    (main lines).call ≠ .exec path argv := by
  cases lines with
  | nil => rintro ⟨⟩
  | cons text lines =>
    rw [main]
    split_ifs
    · rintro ⟨⟩
    · rintro ⟨⟩

/-- Only `runcmd` of a simple command executes a program. -/
theorem Stands.of_exec {W : Fd → Option Wire} {st : Stage} {c : Code} {path : Fs.CString}
    {argv : List (List Char)} (h : Stands lines σ W st (.shell c : Task U))
    (hc : c.call = .exec path argv) :
    treeAt lines σ = some (.exec argv) ∧ W = standard (env lines σ) := by
  cases h with
  | run h =>
    obtain rfl := runcmd_exec hc
    exact ⟨h, rfl⟩
  | main k => exact absurd hc main_ne_exec
  | _ => cases hc

/-- A settled process has no pipes but those of its command. -/
theorem Stands.settled {W : Fd → Option Wire} {st : Stage} (h : Stands lines σ W st x)
    (hx : Settled x) (hw : W fd = some (.pipe τ b)) :
    side b :: τ <:+ σ ∧ ∃ left right, treeAt lines τ = some (.pipe left right) := by
  cases x with
  | user u =>
    obtain ⟨rfl, -⟩ := h.of_user
    exact (h.kept trivial).side (h.node trivial) hw
  | shell c =>
    obtain hc | ⟨path, argv, hc⟩ := hx
    · exact (h.kept (h.rests hc)).side (h.node (h.rests hc)) hw
    · obtain ⟨ht, rfl⟩ := h.of_exec hc
      exact kept_standard.side (.inr ⟨_, ht⟩) hw

/-- Every pipe belongs to somebody. -/
theorem Wired.owned {pg : Files.Page} (h : Wired g m) (hpg : m.files.pipes pg ≠ none) :
    ∃ σ b, Holds g m (.pipe σ b) ∧ g.page σ = pg := by
  have hopen : ∃ b, m.files.isOpen pg b = true := by
    obtain hread | hwrite := h.between.filed.isSome_iff.1 (Option.isSome_iff_ne_none.2 hpg)
    · exact ⟨false, hread⟩
    · exact ⟨true, hwrite⟩
  obtain ⟨b, hopen⟩ := hopen
  obtain ⟨p, x, fd, σ, hx, hw, hpage⟩ := h.holder hopen
  exact ⟨σ, b, ⟨p, x, fd, hx, hw⟩, hpage⟩

theorem Inv.plumbed (h : Inv lines g m) : Plumbed lines g m where
  table := h.wired.table
  denotes := h.wired.denotes
  apart := h.wired.inj
  started _ _ _ _ hp hc := (h.placed.stands _ _ hp).of_exec hc
  programs p u hp := by
    have hstands := h.placed.stands p _ hp
    obtain ⟨hst, -⟩ := hstands.of_user
    rw [hst] at hstands
    exact ⟨hstands.program, hstands.kept trivial⟩
  sides p x _ _ _ hp hx hw := (h.placed.stands p x hp).settled hx hw
  owned _ hpg := h.wired.owned hpg

section Runs

variable (hcall : ∀ u, P.call u ≠ .pipe) (hlines : ∀ text ∈ lines, nul ∉ text)
include hcall hlines

theorem inv_of_reach (hm : Reach (step (withShell P)) always (Started lines) m) :
    ∃ g, Inv lines g m := by
  refine hm.invariant (fun _ => Started.inv) ?_
  rintro n a n' ⟨g, h⟩ - ht
  exact h.step hcall hlines ht

/-- As long as there are processes, one of them does not sleep. -/
theorem lines_go_on (hm : Reach (step (withShell P)) always (Started lines) m)
    (hlive : ∃ p, (m.task p).isSome) :
    ∃ p, (m.task p).isSome ∧ ∀ e, step (withShell P) m (.call p e) ≠ .error .asleep := by
  obtain ⟨g, h⟩ := inv_of_reach hcall hlines hm
  obtain ⟨p, hp⟩ := hlive
  obtain ⟨x, hx⟩ := Option.isSome_iff_exists.1 hp
  by_contra hnone
  refine h.goes_on (P := P) hx fun q y hy => ?_
  by_contra hawake
  refine hnone ⟨q, ?_, fun e he => hawake (asleep_iff.1 he)⟩
  rw [hy]
  rfl

end Runs

/-! ### A pipeline of two commands -/

/-- One process with a file for its descriptors 0, 1 and 2. -/
def consoleFiles : Files.State :=
  ([.open_ 0 pathF 0x202, .dup 0 0, .dup 0 0] : List Files.Call).foldl
    (fun s c => (Files.step s c).toOption.getD s) Files.firstBoot

/-- Without arguments the program writes to descriptor 1, otherwise it reads descriptor 0. -/
def pairProgram : Programs Bool where
  call writes := if writes then .write 1 (fun _ => 7) 600 else .read 0 1
  resume writes _ := writes
  image argv := argv.length = 1

def pairLine : List Char := ['f', '|', 'f', ' ', 'r', '\n']

/-- The shell has slot 0. -/
def alone (lines : List (List Char)) (files : Files.State) : Machine (Task U) where
  files := files
  task := update (fun _ => none) 0 (some (.shell (main lines)))
  sent _ := 0
  zombie _ := false
  parent _ := none
  pid _ := 1
  nextpid := 2

theorem started_alone {files : Files.State} (hfiles : Reach Files.step always Files.Booted files)
    (hpipe : ∀ f, files.pipe f = none) (hcwd : (files.fs.proc 0).cwd.isSome)
    (hfds : ∀ fd, (files.table 0 fd).isSome ↔ fd.val < 3) :
    Started lines (alone lines files : Machine (Task U)) where
  files := hfiles
  noPipe := hpipe
  shell := ⟨0, rfl, hcwd, hfds⟩
  parent _ := rfl
  pid _ := Nat.one_lt_two

def pairStart : Machine (Task Bool) := alone [pairLine] consoleFiles

theorem reach_pairStart : Reach (step (withShell pairProgram)) always (Started [pairLine]) pairStart :=
  .start (started_alone (.foldl (.start Files.booted_firstBoot) _) (by decide +kernel)
    (by decide +kernel) (by decide +kernel))

/-- The calls of the shell, of its child, and of the two commands up to their first own call. -/
def pairMoves : List Move :=
  let calls (p : Slot) (slots : List (Option Slot)) : List Move :=
    slots.map fun slot => .call p ⟨slot, -1, true, [], 0⟩
  calls 0 [some 1] ++ calls 1 [none, some 2, some 3] ++ calls 2 (List.replicate 5 none) ++
    calls 3 (List.replicate 5 none) ++ calls 1 [none, none]

/-- The writer has filled the pipe; it sleeps, and so do the shell and its child. -/
theorem lines_go_on_pair : ∃ m : Machine (Task Bool),
    Reach (step (withShell pairProgram)) always (Started [pairLine]) m ∧
      (∃ p, (m.task p).isSome ∧ ∀ e, step (withShell pairProgram) m (.call p e) ≠ .error .asleep) ∧
      ((m.files.pipes 0x80400000).map Pipes.Pipe.full = some true ∧ (m.task 0).isSome ∧
        (m.task 1).isSome ∧ (m.task 2).isSome) := by
  obtain ⟨m, hm, htest⟩ := reach_pairStart.of_endsIn
    (fun m => decide ((m.files.pipes 0x80400000).map Pipes.Pipe.full = some true ∧
      (m.task 0).isSome ∧ (m.task 1).isSome ∧ (m.task 2).isSome))
    (pairMoves ++ [.call 2 ⟨none, -1, true, [], 0⟩]) (by decide +kernel)
  have htest := of_decide_eq_true htest
  refine ⟨m, hm, lines_go_on ?_ (by decide) hm ⟨0, htest.2.1⟩, htest⟩
  intro writes
  cases writes with
  | _ => rintro ⟨⟩

end Xv6Container.Plumbing
