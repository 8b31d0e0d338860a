import Xv6Container.Plumbing.Session

/-! Where the descriptors of the processes of a shell should lead. A node of a command is named by
the path to it: the line, and then a direction for each step down. Every process runs the code of
one node, at one of the stages of that code, or a program that has been started at a node. -/

namespace Xv6Container.Plumbing

open Function Names
open Files (Lowest)
open Shell (Tree nul Derives tokens)

variable {U : Type} {lines : List (List Char)}

/-! ### Nodes -/

/-- The directions are read from the end, which is the line. -/
abbrev Path := List ℕ

def child : Tree → ℕ → Option Tree
  | .redir cmd _ _ _, 0 => some cmd
  | .list left _, 0 => some left
  | .list _ right, 1 => some right
  | .pipe left _, 0 => some left
  | .pipe _ right, 1 => some right
  | .back cmd, 0 => some cmd
  | _, _ => none

/-- The command at a node; the empty path is `main`. -/
def treeAt (lines : List (List Char)) : Path → Option Tree
  | [] => none
  | [k] => lines[k]?.bind parsed
  | d :: e :: σ => (treeAt lines (e :: σ)).bind (child · d)

theorem treeAt_cons {σ : Path} {t : Tree} (h : treeAt lines σ = some t) (d : ℕ) :
    treeAt lines (d :: σ) = child t d := by
  cases σ with
  | nil => cases h
  | cons e σ => rw [treeAt, h, Option.bind_some]

/-! ### Wires -/

/-- What a descriptor leads to: a file of the shell itself, the file that a redirection has opened,
an end of the pipe of a pipeline, or a file that a program has opened. -/
inductive Wire where
  | std (i : ℕ)
  | file (σ : Path)
  | pipe (σ : Path) (w : Bool)
  | own (f : FileId)
  deriving DecidableEq

/-- The node that makes it. -/
def Wire.node : Wire → Option Path
  | .file σ => some σ
  | .pipe σ _ => some σ
  | _ => none

/-- The side of a pipeline that uses an end of its pipe. -/
def side (w : Bool) : ℕ := if w then 0 else 1

/-- What the children in direction `d` of the command at `σ` get, when the command has `e`. -/
def enter (e : ℕ → Wire) (σ : Path) (d : ℕ) : Tree → ℕ → Wire
  | .pipe _ _ => if d = 0 then update e 1 (.pipe σ true) else update e 0 (.pipe σ false)
  | .redir _ _ _ fd => update e fd (.file σ)
  | _ => e

/-- What the descriptors 0, 1 and 2 lead to in the command at a node. -/
def env (lines : List (List Char)) : Path → ℕ → Wire
  | [] => .std
  | d :: σ => (treeAt lines σ).elim (env lines σ) (enter (env lines σ) σ d)

/-- A step down makes one wire, if any. -/
theorem enter_eq (e : ℕ → Wire) (σ : Path) (d : ℕ) (t : Tree) (i : ℕ) :
    enter e σ d t i = e i ∨ enter e σ d t i = .file σ ∨
      ∃ w, enter e σ d t i = .pipe σ w ∧ (d ≤ 1 → d = side w) := by
  cases t with
  | pipe left right =>
    rw [enter]
    split_ifs with hd
    · by_cases hi : i = 1
      · rw [hi, update_self]
        exact .inr (.inr ⟨true, rfl, fun _ => hd⟩)
      · exact .inl (update_of_ne hi ..)
    · by_cases hi : i = 0
      · rw [hi, update_self]
        exact .inr (.inr ⟨false, rfl, fun hle => by rw [side]; simp; omega⟩)
      · exact .inl (update_of_ne hi ..)
  | redir cmd file mode fd =>
    rw [enter]
    by_cases hi : i = fd
    · rw [hi, update_self]
      exact .inr (.inl rfl)
    · exact .inl (update_of_ne hi ..)
  | _ => exact .inl rfl

/-- What a command gets is made above it. -/
theorem env_above {σ : Path} {i : ℕ} {n : Path} (h : (env lines σ i).node = some n) :
    ∃ d, d :: n <:+ σ := by
  induction σ generalizing i with
  | nil => cases h
  | cons d σ ih =>
    have hup : ∀ {i}, (env lines σ i).node = some n → ∃ d', d' :: n <:+ d :: σ := by
      intro i hi
      obtain ⟨d', hd'⟩ := ih hi
      exact ⟨d', hd'.trans (List.suffix_cons d σ)⟩
    rw [env] at h
    cases ht : treeAt lines σ with
    | none =>
      rw [ht] at h
      exact hup h
    | some t =>
      rw [ht] at h
      obtain he | he | ⟨w, he, -⟩ := enter_eq (env lines σ) σ d t i
      · rw [Option.elim_some, he] at h
        exact hup h
      · rw [Option.elim_some, he] at h
        obtain rfl := Option.some.inj h
        exact ⟨d, List.suffix_refl _⟩
      · rw [Option.elim_some, he] at h
        obtain rfl := Option.some.inj h
        exact ⟨d, List.suffix_refl _⟩

theorem child_le {t u : Tree} {d : ℕ} (h : child t d = some u) : d ≤ 1 := by
  by_contra hd
  obtain ⟨k, rfl⟩ : ∃ k, d = k + 2 := ⟨d - 2, by omega⟩
  cases t with
  | _ => cases h

/-- A command with an end of a pipe is on the side of the pipeline that uses it. -/
theorem env_side {σ : Path} {t : Tree} {i : ℕ} {n : Path} {w : Bool}
    (ht : treeAt lines σ = some t) (h : env lines σ i = .pipe n w) : side w :: n <:+ σ := by
  induction σ generalizing i t with
  | nil => cases ht
  | cons d σ ih =>
    rw [env] at h
    cases ht' : treeAt lines σ with
    | none =>
      cases σ with
      | nil =>
        rw [ht'] at h
        cases h
      | cons e σ =>
        rw [treeAt, ht'] at ht
        cases ht
    | some u =>
      rw [treeAt_cons ht'] at ht
      rw [ht', Option.elim_some] at h
      obtain he | he | ⟨v, he, hd⟩ := enter_eq (env lines σ) σ d u i
      · exact (ih ht' (he.symm.trans h)).trans (List.suffix_cons d σ)
      · cases he.symm.trans h
      · obtain ⟨rfl, rfl⟩ := Wire.pipe.inj (he.symm.trans h)
        rw [← hd (child_le ht)]

/-! ### Redirections -/

/-- The redirections are for one of the first three descriptors. -/
def Redirects : Tree → Prop
  | .exec _ => True
  | .redir cmd _ _ fd => fd < 3 ∧ Redirects cmd
  | .pipe left right | .list left right => Redirects left ∧ Redirects right
  | .back cmd => Redirects cmd

theorem redirects_back {t : Tree} (h : Redirects t) (k : ℕ) : Redirects (Tree.back^[k] t) := by
  induction k with
  | zero => exact h
  | succ k ih =>
    rw [iterate_succ_apply']
    exact ih

theorem redirects_wrap {t : Tree} (h : Redirects t) (rs : List (Shell.Op × List Char)) :
    Redirects (rs.foldl .wrap t) := by
  induction rs generalizing t with
  | nil => exact h
  | cons r rs ih =>
    refine ih ⟨?_, h⟩
    cases r.1 with
    | _ => decide

theorem redirects_of_derives {x : Shell.Sym} {ts : List Shell.Token} {t : Tree}
    (h : Derives x ts t) : Redirects t := by
  induction h with
  | line k _ ih => exact redirects_back ih k
  | list k _ _ ih ih' => exact ⟨redirects_back ih k, ih'⟩
  | single _ ih => exact ih
  | pipe _ _ ih ih' => exact ⟨ih, ih'⟩
  | block rs _ ih => exact redirects_wrap ih rs
  | exec items _ => exact redirects_wrap (t := .exec _) trivial _

theorem parsed_redirects {text : List Char} {t : Tree} (htext : nul ∉ text)
    (h : parsed text = some t) : Redirects t := by
  rw [parsed] at h
  split at h
  next cmd buf hparse =>
    obtain rfl := Option.some.inj h
    obtain ⟨⟨cmd', j⟩, hline, hparse⟩ := Shell.bind_eq_ok hparse
    obtain ⟨-, hcmd, ts, -, hder⟩ := (Shell.parse_sound htext _).1 0 cmd' j (Nat.zero_le _) hline
    change (if (Shell.peek text j []).2 ≠ text.length then _ else _) = _ at hparse
    split_ifs at hparse
    · obtain ⟨rfl, rfl⟩ := Prod.mk.inj (Except.ok.inj hparse)
      rw [Shell.tree_nulterminate htext hcmd]
      exact redirects_of_derives hder
  next => cases h

theorem child_redirects {t u : Tree} {d : ℕ} (h : Redirects t) (hu : child t d = some u) :
    Redirects u := by
  have hd := child_le hu
  cases t with
  | exec argv => cases hu
  | redir cmd file mode fd =>
    obtain rfl | rfl : d = 0 ∨ d = 1 := by omega
    · obtain rfl := Option.some.inj hu
      exact h.2
    · cases hu
  | pipe left right =>
    obtain rfl | rfl : d = 0 ∨ d = 1 := by omega
    · obtain rfl := Option.some.inj hu
      exact h.1
    · obtain rfl := Option.some.inj hu
      exact h.2
  | list left right =>
    obtain rfl | rfl : d = 0 ∨ d = 1 := by omega
    · obtain rfl := Option.some.inj hu
      exact h.1
    · obtain rfl := Option.some.inj hu
      exact h.2
  | back cmd =>
    obtain rfl | rfl : d = 0 ∨ d = 1 := by omega
    · obtain rfl := Option.some.inj hu
      exact h
    · cases hu

theorem treeAt_redirects (hlines : ∀ text ∈ lines, nul ∉ text) {σ : Path} {t : Tree}
    (h : treeAt lines σ = some t) : Redirects t := by
  induction σ generalizing t with
  | nil => cases h
  | cons d σ ih =>
    cases σ with
    | nil =>
      rw [treeAt] at h
      obtain ⟨text, htext, hparsed⟩ := Option.bind_eq_some_iff.1 h
      exact parsed_redirects (hlines text (List.mem_of_getElem? htext)) hparsed
    | cons e σ =>
      rw [treeAt] at h
      obtain ⟨u, hu, ht⟩ := Option.bind_eq_some_iff.1 h
      exact child_redirects (ih hu) ht

/-! ### Descriptors -/

/-- Three descriptors are in use. -/
def standard (e : ℕ → Wire) (fd : Fd) : Option Wire := if fd.val < 3 then some (e fd) else none

/-- The descriptors between `pipe` and `close`. -/
def piped (e : ℕ → Wire) (σ : Path) : Fd → Option Wire :=
  update (update (standard e) 3 (some (.pipe σ false))) 4 (some (.pipe σ true))

variable {e : ℕ → Wire} {σ : Path} {w : Wire} {fd : Fd}

theorem standard_of_lt (h : fd.val < 3) : standard e fd = some (e fd) := if_pos h

theorem standard_of_le (h : 3 ≤ fd.val) : standard e fd = none := if_neg (Nat.not_lt.2 h)

theorem lowest_standard : Lowest (standard e) 3 := by
  refine ⟨standard_of_le (le_refl 3), fun fd hfd => ?_⟩
  rw [standard_of_lt (e := e) hfd]
  rintro ⟨⟩

theorem lowest_reader : Lowest (update (standard e) 3 (some w)) 4 := by
  refine ⟨(update_of_ne (by decide) ..).trans (standard_of_le (by decide)), fun fd hfd => ?_⟩
  by_cases h : fd = 3
  · rw [h, update_self]
    rintro ⟨⟩
  · have hlt : fd.val < 3 := by
      have h3 := Fin.val_ne_of_ne h
      have h4 : fd.val < 4 := hfd
      change fd.val ≠ 3 at h3
      omega
    rw [update_of_ne h, standard_of_lt hlt]
    rintro ⟨⟩

theorem lowest_closed {T : Fd → Option Wire} (hT : ∀ fd' < fd, T fd' ≠ none) :
    Lowest (update T fd none) fd := by
  refine ⟨update_self .., fun fd' hlt => ?_⟩
  rw [update_of_ne hlt.ne]
  exact hT fd' hlt

theorem standard_ne_none (h : fd.val < 3) : ∀ fd' < fd, standard e fd' ≠ none := by
  intro fd' hlt
  rw [standard_of_lt (lt_trans hlt h)]
  rintro ⟨⟩

theorem piped_of_lt (h : fd.val < 3) : piped e σ fd = some (e fd) := by
  have h3 : fd ≠ 3 := by
    rintro rfl
    exact absurd h (by decide)
  have h4 : fd ≠ 4 := by
    rintro rfl
    exact absurd h (by decide)
  rw [piped, update_of_ne h4, update_of_ne h3, standard_of_lt h]

/-- A redirection. -/
theorem standard_redirect (h : fd.val < 3) :
    update (update (standard e) fd none) fd (some w) = standard (update e fd w) := by
  funext fd'
  rw [update_idem]
  by_cases heq : fd' = fd
  · rw [heq, update_self, standard_of_lt h, update_self]
  · rw [update_of_ne heq, standard, standard, update_of_ne (Fin.val_ne_of_ne heq)]

/-- The pipe is closed again. -/
theorem piped_close : update (update (piped e σ) 3 none) 4 none = standard e := by
  funext fd
  by_cases h4 : fd = 4
  · rw [h4, update_self]
    rfl
  · rw [update_of_ne h4]
    by_cases h3 : fd = 3
    · rw [h3, update_self]
      rfl
    · rw [update_of_ne h3, piped, update_of_ne h4, update_of_ne h3]

/-- An end of the pipe has become a descriptor of its own. -/
theorem piped_dup (h : fd.val < 3) :
    update (update (piped e σ) fd none) fd (some w) = piped (update e fd w) σ := by
  have h3 : (3 : Fd) ≠ fd := by
    rintro rfl
    exact absurd h (by decide)
  have h4 : (4 : Fd) ≠ fd := by
    rintro rfl
    exact absurd h (by decide)
  rw [piped, piped, ← standard_redirect h, update_idem, update_idem, update_comm h4,
    update_comm h3]

/-! ### Stages -/

/-- Where the shell is in the code of a node. The `plumb` stages are those of a child of a pipeline
that is going to use one end of the pipe. -/
inductive Stage where
  | main (k : ℕ)
  | mainWait (k : ℕ)
  | run
  | opens
  | listWait
  | pipeLeft
  | pipeRight
  | close0
  | close1
  | wait2
  | wait1
  | plumbClose (w : Bool)
  | plumbDup (w : Bool)
  | plumbClose0
  | plumbClose1
  | leaving
  | user
  deriving DecidableEq

/-- The descriptor that gets an end of a pipe. -/
def target (w : Bool) : Fd := if w then 1 else 0

/-- The descriptor that `pipe` returns for an end. -/
def source (w : Bool) : Fd := if w then 4 else 3

/-- What a process leads to with its descriptors is made above its node or, in the middle of a
pipeline, at it. -/
def Above (σ : Path) (W : Fd → Option Wire) : Prop :=
  ∀ fd w, W fd = some w → ∀ n, w.node = some n → n <:+ σ

/-- A program may have closed descriptors, and opened files. -/
def Kept (e : ℕ → Wire) (W : Fd → Option Wire) : Prop :=
  ∀ fd w, W fd = some w → (∃ i < 3, w = e i) ∨ ∃ f, w = .own f

/-- The code of a node at a stage, and what the descriptors of the process lead to. -/
inductive Stands (lines : List (List Char)) :
    Path → (Fd → Option Wire) → Stage → Task U → Prop
  | main (k : ℕ) : Stands lines [] (standard .std) (.main k) (.shell (main (lines.drop k)))
  | mainWait (k : ℕ) :
    Stands lines [] (standard .std) (.mainWait k) (.shell (.wait (main (lines.drop (k + 1)))))
  | run {σ : Path} {t : Tree} (h : treeAt lines σ = some t) :
    Stands lines σ (standard (env lines σ)) .run (.shell (runcmd t))
  | opens {σ : Path} {cmd : Tree} {file : List Char} {mode : ℕ} {fd : Fd} (hfd : fd.val < 3)
    (h : treeAt lines σ = some (.redir cmd file mode fd)) :
    Stands lines σ (update (standard (env lines σ)) fd none) .opens
      (.shell (.open_ (cstring file) (UInt32.ofNat mode) fun r =>
        if r < 0 then .exit else runcmd cmd))
  | listWait {σ : Path} {left right : Tree} (h : treeAt lines σ = some (.list left right)) :
    Stands lines σ (standard (env lines σ)) .listWait (.shell (.wait (runcmd right)))
  | pipeLeft {σ : Path} {left right : Tree} (h : treeAt lines σ = some (.pipe left right)) :
    Stands lines σ (piped (env lines σ) σ) .pipeLeft (.shell (afterFork1 fun pid =>
      if pid = 0 then plumb 1 4 3 4 (runcmd left)
      else afterFork1 fun pid =>
        if pid = 0 then plumb 0 3 3 4 (runcmd right)
        else .close (3 : Fd) (.close (4 : Fd) (.wait (.wait .exit)))))
  | pipeRight {σ : Path} {left right : Tree} (h : treeAt lines σ = some (.pipe left right)) :
    Stands lines σ (piped (env lines σ) σ) .pipeRight (.shell (afterFork1 fun pid =>
      if pid = 0 then plumb 0 3 3 4 (runcmd right)
      else .close (3 : Fd) (.close (4 : Fd) (.wait (.wait .exit)))))
  | close0 {σ : Path} {left right : Tree} (h : treeAt lines σ = some (.pipe left right)) :
    Stands lines σ (piped (env lines σ) σ) .close0
      (.shell (.close (3 : Fd) (.close (4 : Fd) (.wait (.wait .exit)))))
  | close1 {σ : Path} {left right : Tree} (h : treeAt lines σ = some (.pipe left right)) :
    Stands lines σ (update (piped (env lines σ) σ) 3 none) .close1
      (.shell (.close (4 : Fd) (.wait (.wait .exit))))
  | wait2 {σ : Path} {left right : Tree} (h : treeAt lines σ = some (.pipe left right)) :
    Stands lines σ (standard (env lines σ)) .wait2 (.shell (.wait (.wait .exit)))
  | wait1 {σ : Path} {left right : Tree} (h : treeAt lines σ = some (.pipe left right)) :
    Stands lines σ (standard (env lines σ)) .wait1 (.shell (.wait .exit))
  | plumbClose {σ : Path} {left right t : Tree} (w : Bool)
    (h : treeAt lines σ = some (.pipe left right)) (ht : treeAt lines (side w :: σ) = some t) :
    Stands lines (side w :: σ) (piped (env lines σ) σ) (.plumbClose w)
      (.shell (plumb (target w) (source w) 3 4 (runcmd t)))
  | plumbDup {σ : Path} {left right t : Tree} (w : Bool)
    (h : treeAt lines σ = some (.pipe left right)) (ht : treeAt lines (side w :: σ) = some t) :
    Stands lines (side w :: σ) (update (piped (env lines σ) σ) (target w) none) (.plumbDup w)
      (.shell (.dup (source w) (.close (3 : Fd) (.close (4 : Fd) (runcmd t)))))
  | plumbClose0 {σ : Path} {d : ℕ} {left right t : Tree}
    (h : treeAt lines σ = some (.pipe left right)) (ht : treeAt lines (d :: σ) = some t) :
    Stands lines (d :: σ) (piped (env lines (d :: σ)) σ) .plumbClose0
      (.shell (.close (3 : Fd) (.close (4 : Fd) (runcmd t))))
  | plumbClose1 {σ : Path} {d : ℕ} {left right t : Tree}
    (h : treeAt lines σ = some (.pipe left right)) (ht : treeAt lines (d :: σ) = some t) :
    Stands lines (d :: σ) (update (piped (env lines (d :: σ)) σ) 3 none) .plumbClose1
      (.shell (.close (4 : Fd) (runcmd t)))
  | leaving {σ : Path} {W : Fd → Option Wire} (h : Above σ W) :
    Stands lines σ W .leaving (.shell .exit)
  | user {σ : Path} {W : Fd → Option Wire} {argv : List (List Char)} {u : U}
    (h : treeAt lines σ = some (.exec argv)) (hW : Kept (env lines σ) W) :
    Stands lines σ W .user (.user u)

end Xv6Container.Plumbing
