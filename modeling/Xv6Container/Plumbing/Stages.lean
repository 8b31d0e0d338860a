import Xv6Container.Plumbing.Steps
import Xv6Container.Lib.Reach

/-! The stages of the shell, one after the other: every call leads to the next stage of its node, or
down to a node below, and the invariant holds in every run of a shell. -/

namespace Xv6Container.Plumbing

open Function Names Lib
open Files (Between Lowest)
open Shell (Tree nul fork1)

variable {U : Type} {P : Programs U} {lines : List (List Char)} {m m' : Machine (Task U)}
  {p q : Slot} {e : Env} {g : Wiring} {σ σ' τ : Path} {st st' : Stage} {W : Fd → Option Wire}
  {d : ℕ} {t : Tree}

/-! ### Moves down and on -/

theorem below_of_below (h : d :: σ <:+ τ) : σ <:+ τ := (List.suffix_cons d σ).trans h

theorem apart_of_ne {d' : ℕ} (h : d ≠ d') : ∀ τ, d :: σ <:+ τ → ¬ d' :: σ <:+ τ :=
  fun _ hd hd' => h (suffix_inj hd hd')

/-- A stage after which nothing is left to do at a node but to close files. -/
theorem advances_on (hst : st ≠ .user) (htodo : todo σ st' ⊆ todo σ st)
    (hmax : maxKids st ≤ maxKids st') (hkid : ∀ τ str, KidAt σ st τ str → KidAt σ st' τ str) :
    Advances σ st σ st' where
  deeper := List.suffix_refl _
  user h := absurd h hst
  todo := htodo
  maxKids := hmax
  kidAt := hkid

theorem Inv.main {k : ℕ} (h : Inv lines g m) (hat : g.At p [] (.main k) (standard .std))
    (hp : m.task p = some (.shell (main (lines.drop k))))
    (ht : m.callStep (withShell P) p (.shell (main (lines.drop k))) e
      (main (lines.drop k)).call = .ok m') : ∃ g, Inv lines g m' := by
  cases hdrop : lines.drop k with
  | nil =>
    rw [hdrop] at ht
    exact ⟨g, h.exits (exit_goes h.wired.between ht)⟩
  | cons text rest =>
    have hrest : lines.drop (k + 1) = rest := by
      rw [← List.drop_drop, hdrop]
      rfl
    have htext : lines[k]? = some text := by
      rw [← List.head?_drop, hdrop]
      rfl
    rw [hdrop] at hp ht
    rw [Plumbing.main] at hp ht
    split_ifs at hp ht with hcd
    · have hstands : Stands lines [] (standard .std) (.main (k + 1))
          (.shell (Plumbing.main rest) : Task U) := hrest ▸ .main (k + 1)
      refine h.chdirs hat hp ht (advances_on (by rintro ⟨⟩) ?_ (Nat.zero_le _) ?_) hstands
      · rintro τ ⟨j, hj, hτ⟩
        exact ⟨j, Nat.le_of_succ_le hj, hτ⟩
      · exact fun _ _ hkid => hkid.elim
    · have hwait : Stands lines [] (standard .std) (.mainWait k)
          (.shell (.wait (Plumbing.main rest)) : Task U) := hrest ▸ .mainWait k
      have hsplit : ∀ stq, todo [k] stq ⊆ {τ | [k] <:+ τ} →
          Splits [] (.main k) (.mainWait k) [k] stq := by
        intro stq hstq
        refine ⟨by rintro ⟨⟩, ?_, ?_, ?_, .inl (le_refl 1), fun _ _ hkid => hkid.elim,
          List.suffix_refl _⟩
        · rintro τ ⟨j, hj, hτ⟩
          exact ⟨j, hj.le, hτ⟩
        · intro τ hτ
          exact ⟨k, le_refl k, hstq hτ⟩
        · rintro τ hτ ⟨j, hj, hτ'⟩
          exact hj.ne (suffix_inj (hstq hτ) hτ')
      have hparent : ∀ r : ℤ, r ≠ 0 → Stands lines [] (standard .std) (.mainWait k)
          (.shell (if r = 0 then runline text else .wait (Plumbing.main rest)) : Task U) := by
        intro r hr
        rw [if_neg hr]
        exact hwait
      cases hparsed : parsed text with
      | none =>
        have habove : Above [k] (standard (env lines [k])) := above_env
        have hchild : Stands lines [k] (standard .std) .leaving (.shell (runline text) : Task U) := by
          rw [runline, hparsed]
          exact .leaving habove
        exact h.shellForks hat hp ht (by rintro ⟨⟩) (hsplit .leaving (Set.empty_subset _)) hparent
          hchild
      | some tree =>
        have htree : treeAt lines [k] = some tree := by
          rw [treeAt, htext, Option.bind_some, hparsed]
        have hchild : Stands lines [k] (standard .std) .run (.shell (runline text) : Task U) := by
          rw [runline, hparsed]
          exact .run htree
        exact h.shellForks hat hp ht (by rintro ⟨⟩) (hsplit .run subset_rfl) hparent hchild

/-- A process goes down to a child of its node. -/
theorem advances_down (hst : st ≠ .user) (hstage : todo (d :: σ) st' ⊆ {τ | d :: σ <:+ τ})
    (htodo : ∀ τ, d :: σ <:+ τ → τ ∈ todo σ st) (hmax : maxKids st = 0)
    (hkid : ∀ τ str, ¬ KidAt σ st τ str) : Advances σ st (d :: σ) st' where
  deeper := List.suffix_cons d σ
  user h := absurd h hst
  todo τ hτ := htodo τ (hstage hτ)
  maxKids := hmax ▸ Nat.zero_le _
  kidAt τ str h := absurd h (hkid τ str)

/-- A child goes down to a child of the node. -/
theorem splits_down {stq : Stage} (hst : st ≠ .user)
    (hparent : todo σ st' ⊆ todo σ st) (hstage : todo (d :: σ) stq ⊆ {τ | d :: σ <:+ τ})
    (hchild : ∀ τ, d :: σ <:+ τ → τ ∈ todo σ st) (hapart : ∀ τ, d :: σ <:+ τ → τ ∉ todo σ st')
    (hmax : maxKids st + 1 ≤ maxKids st') (hkidAt : ∀ τ str, KidAt σ st τ str → KidAt σ st' τ str)
    (hkid : KidAt σ st' (d :: σ) stq) : Splits σ st st' (d :: σ) stq where
  user h := absurd h hst
  parent := hparent
  child τ hτ := hchild τ (hstage hτ)
  apart τ hτ := hapart τ (hstage hτ)
  maxKids := .inl hmax
  kidAt := hkidAt
  kid := hkid

theorem env_plain {t : Tree} (ht : treeAt lines σ = some t)
    (h : enter (env lines σ) σ d t = env lines σ) : env lines (d :: σ) = env lines σ := by
  rw [env, ht, Option.elim_some, h]

theorem Inv.run (hlines : ∀ text ∈ lines, nul ∉ text) (h : Inv lines g m)
    (hat : g.At p σ .run (standard (env lines σ))) (ht : treeAt lines σ = some t)
    (hp : m.task p = some (.shell (runcmd t)))
    (hm : m.callStep (withShell P) p (.shell (runcmd t)) e (runcmd t).call = .ok m') :
    ∃ g, Inv lines g m' := by
  cases t with
  | exec argv =>
    rw [runcmd] at hp hm
    split_ifs at hp hm
    · exact ⟨g, h.exits (exit_goes h.wired.between hm)⟩
    · exact h.execs hat hp hm ht
  | redir cmd file mode fd =>
    rw [runcmd] at hp hm
    have hfd : fd < 3 := (treeAt_redirects hlines ht).1
    obtain ⟨fd, rfl⟩ : ∃ b : Fd, b.val = fd := ⟨⟨fd, hfd.trans (by decide)⟩, rfl⟩
    have hadv : Advances σ .run σ .opens := advances_on (by rintro ⟨⟩) subset_rfl (le_refl 0)
      fun _ _ hkid => hkid.elim
    exact h.closes hat hp hm hadv (.opens hfd ht)
  | list left right =>
    rw [runcmd] at hp hm
    have hleft : treeAt lines (0 :: σ) = some left := treeAt_cons ht 0
    have hchild : Stands lines (0 :: σ) (standard (env lines σ)) .run
        (.shell (runcmd left) : Task U) := by
      rw [← env_plain (d := 0) ht rfl]
      exact .run hleft
    have hsplit : Splits σ .run .listWait (0 :: σ) .run := splits_down (by rintro ⟨⟩)
      (fun τ => below_of_below) subset_rfl (fun τ => below_of_below) (apart_of_ne (by decide))
      (le_refl 1) (fun _ _ hkid => hkid.elim) (List.suffix_refl _)
    refine h.shellForks hat hp hm (by rintro ⟨⟩) hsplit (fun r hr => ?_) hchild
    rw [if_neg hr]
    exact .listWait ht
  | pipe left right =>
    rw [runcmd] at hp hm
    have hadv : Advances σ .run σ .pipeLeft := by
      refine advances_on (by rintro ⟨⟩) ?_ (le_refl 0) fun _ _ hkid => hkid.elim
      rintro τ (hτ | hτ)
      · exact below_of_below hτ
      · exact below_of_below hτ
    refine h.pipes hat hp hm lowest_standard lowest_reader (List.suffix_refl _) ?_ hadv
      (by rintro ⟨⟩) (.pipeLeft ht) fun r hr fds => if_pos hr
    rintro (hσ | hσ)
    · exact not_below 0 σ hσ
    · exact not_below 1 σ hσ
  | back cmd =>
    rw [runcmd] at hp hm
    have hcmd : treeAt lines (0 :: σ) = some cmd := treeAt_cons ht 0
    have hchild : Stands lines (0 :: σ) (standard (env lines σ)) .run
        (.shell (runcmd cmd) : Task U) := by
      rw [← env_plain (d := 0) ht rfl]
      exact .run hcmd
    have hsplit : Splits σ .run .leaving (0 :: σ) .run := splits_down (by rintro ⟨⟩)
      (Set.empty_subset _) subset_rfl (fun τ => below_of_below) (fun τ _ => Set.notMem_empty τ)
      (by decide) (fun _ _ hkid => hkid.elim) trivial
    refine h.shellForks hat hp hm (by rintro ⟨⟩) hsplit (fun r hr => ?_) hchild
    rw [if_neg hr]
    exact .leaving above_env

/-! ### Every call -/

theorem piped_source {e : ℕ → Wire} (w : Bool) : piped e σ (source w) = some (.pipe σ w) := by
  cases w with
  | _ => rfl

theorem target_lt (w : Bool) : (target w).val < 3 := by
  cases w with
  | _ => decide

theorem Inv.shellWaits {next : Code} (h : Inv lines g m) (hat : g.At p σ st W)
    (hp : m.task p = some (.shell (.wait next)))
    (ht : m.wait (withShell P) p (.shell (.wait next)) = .ok m') (hwait : Awaits σ st σ' st')
    (hstands : Stands lines σ' W st' (.shell next : Task U)) : ∃ g, Inv lines g m' := by
  obtain ⟨rfl, rfl, rfl⟩ := hat
  exact h.waits hp ht hwait fun _ => hstands

/-- A stage that only closes a descriptor. -/
theorem advances_close (hst : st ≠ .user) (htodo : todo σ st' = todo σ st)
    (hmax : maxKids st = maxKids st') (hkid : KidAt σ st = KidAt σ st') :
    Advances σ st σ st' :=
  advances_on hst htodo.subset hmax.le fun _ _ h => hkid ▸ h

/-- The file of a redirection is opened. -/
theorem Inv.redirects {cmd : Tree} {file : List Char} {mode : ℕ} {fd : Fd} (h : Inv lines g m)
    (hat : g.At p σ .opens (update (standard (env lines σ)) fd none)) (hfd : fd.val < 3)
    (htree : treeAt lines σ = some (.redir cmd file mode fd)) {next : ℤ → Code}
    (hnext : next = fun r => if r < 0 then .exit else runcmd cmd)
    (hp : m.task p = some (.shell (.open_ (cstring file) (UInt32.ofNat mode) next)))
    (ht : m.open_ (withShell P) p (.shell (.open_ (cstring file) (UInt32.ofNat mode) next))
      (cstring file) (UInt32.ofNat mode) = .ok m') : ∃ g, Inv lines g m' := by
  have hdown : Advances σ .opens (0 :: σ) .run := advances_down (by rintro ⟨⟩) subset_rfl
    (fun τ => below_of_below) rfl fun _ _ => id
  have hchild : treeAt lines (0 :: σ) = some cmd := treeAt_cons htree 0
  have henv : env lines (0 :: σ) = update (env lines σ) fd (.file σ) := by
    rw [env, htree]
    rfl
  subst hnext
  have hdone : σ ∉ todo (0 :: σ) .run := not_below 0 σ
  refine h.opens hat hp ht (lowest_closed (standard_ne_none hfd)) (List.suffix_refl _)
    hdone hdown (by rintro ⟨⟩) (fun r hr => ?_) fun r hr => if_pos hr
  rw [if_neg hr, standard_redirect hfd, ← henv]
  exact .run hchild

/-- An end of a pipe is copied to the descriptor that has been closed for it. -/
theorem Inv.plumbs {left right : Tree} {w : Bool} {next : Code} (h : Inv lines g m)
    (hat : g.At p (side w :: σ) (.plumbDup w) (update (piped (env lines σ) σ) (target w) none))
    (htree : treeAt lines σ = some (.pipe left right))
    (hp : m.task p = some (.shell (.dup (source w) next)))
    (ht : m.dup (withShell P) p (.shell (.dup (source w) next)) (source w) = .ok m')
    (hstands : Stands lines (side w :: σ) (piped (env lines (side w :: σ)) σ) .plumbClose0
      (.shell next : Task U)) : ∃ g, Inv lines g m' := by
  have hsource : update (piped (env lines σ) σ) (target w) none (source w) =
      some (.pipe σ w) := by
    rw [update_of_ne, piped_source]
    cases w with
    | _ => decide
  have hadv : Advances (side w :: σ) (.plumbDup w) (side w :: σ) .plumbClose0 :=
    advances_close (by rintro ⟨⟩) rfl rfl rfl
  refine h.dups hat hp ht ?_ (lowest_closed fun fd hfd => ?_) hadv ?_
  · rw [hsource]
    rintro ⟨⟩
  · rw [piped_of_lt (lt_trans hfd (target_lt w))]
    rintro ⟨⟩
  · rw [hsource, piped_dup (target_lt w), ← env_target htree]
    exact hstands

theorem Inv.call (hcall : ∀ u, P.call u ≠ .pipe) (hlines : ∀ text ∈ lines, nul ∉ text)
    (h : Inv lines g m) {x : Task U} (hp : m.task p = some x)
    (ht : m.callStep (withShell P) p x e ((withShell P).call x) = .ok m') : ∃ g, Inv lines g m' := by
  have hstands := h.placed.stands p x hp
  have hat : g.At p (g.place p) (g.stage p) (g.wires p) := ⟨rfl, rfl, rfl⟩
  generalize g.place p = σ, g.stage p = st, g.wires p = W at hstands hat
  cases hstands with
  | main k => exact h.main hat hp ht
  | mainWait k =>
    have hwait : Awaits [] (.mainWait k) [] (.main (k + 1)) := ⟨List.suffix_refl _, by rintro ⟨⟩,
      subset_rfl, le_refl 1, .inl rfl⟩
    exact h.shellWaits hat hp ht hwait (.main (k + 1))
  | run htree => exact h.run hlines hat htree hp ht
  | opens hfd htree => exact h.redirects hat hfd htree rfl hp ht
  | @listWait σ left right htree =>
    have hwait : Awaits σ .listWait (1 :: σ) .run := ⟨List.suffix_cons 1 σ, by rintro ⟨⟩,
      subset_rfl, le_refl 1, .inl rfl⟩
    have hchild : treeAt lines (1 :: σ) = some right := treeAt_cons htree 1
    refine h.shellWaits hat hp ht hwait ?_
    rw [← env_plain (d := 1) htree rfl]
    exact .run hchild
  | @pipeLeft σ left right htree =>
    have hchild : treeAt lines (0 :: σ) = some left := treeAt_cons htree 0
    have hsplit : Splits σ .pipeLeft .pipeRight (0 :: σ) (.plumbClose true) :=
      splits_down (by rintro ⟨⟩) (fun τ => Or.inr) subset_rfl (fun τ => Or.inl)
        (apart_of_ne (by decide)) (le_refl 1) (fun _ _ hkid => hkid.elim)
        (.inl (List.suffix_refl _))
    refine h.shellForks hat hp ht (by rintro ⟨⟩) hsplit (fun r hr => ?_)
      (.plumbClose true htree hchild)
    rw [if_neg hr]
    exact .pipeRight htree
  | @pipeRight σ left right htree =>
    have hchild : treeAt lines (1 :: σ) = some right := treeAt_cons htree 1
    have hsplit : Splits σ .pipeRight .close0 (1 :: σ) (.plumbClose false) :=
      splits_down (by rintro ⟨⟩) (Set.empty_subset _) subset_rfl (fun τ => id)
        (fun τ _ => Set.notMem_empty τ) (le_refl 2) (fun _ _ => id) (.inr (List.suffix_refl _))
    refine h.shellForks hat hp ht (by rintro ⟨⟩) hsplit (fun r hr => ?_)
      (.plumbClose false htree hchild)
    rw [if_neg hr]
    exact .close0 htree
  | @close0 σ _ _ htree =>
    have hadv : Advances σ .close0 σ .close1 := advances_close (by rintro ⟨⟩) rfl rfl rfl
    exact h.closes hat hp ht hadv (.close1 htree)
  | @close1 σ _ _ htree =>
    have hadv : Advances σ .close1 σ .wait2 := advances_close (by rintro ⟨⟩) rfl rfl rfl
    refine h.closes hat hp ht hadv ?_
    rw [piped_close]
    exact .wait2 htree
  | @wait2 σ _ _ htree =>
    have hwait : Awaits σ .wait2 σ .wait1 := ⟨List.suffix_refl _, by rintro ⟨⟩, subset_rfl,
      le_refl 2, .inr fun _ _ => id⟩
    exact h.shellWaits hat hp ht hwait (.wait1 htree)
  | @wait1 σ _ _ htree =>
    have hwait : Awaits σ .wait1 σ .leaving := ⟨List.suffix_refl _, by rintro ⟨⟩, subset_rfl,
      by decide, .inr fun _ _ _ => trivial⟩
    exact h.shellWaits hat hp ht hwait (.leaving above_env)
  | @plumbClose σ _ _ _ w htree hchild =>
    have hadv : Advances (side w :: σ) (.plumbClose w) (side w :: σ) (.plumbDup w) :=
      advances_close (by rintro ⟨⟩) rfl rfl rfl
    exact h.closes hat hp ht hadv (.plumbDup w htree hchild)
  | plumbDup w htree hchild => exact h.plumbs hat htree hp ht (.plumbClose0 htree hchild)
  | @plumbClose0 σ d _ _ _ htree hchild =>
    have hadv : Advances (d :: σ) .plumbClose0 (d :: σ) .plumbClose1 :=
      advances_close (by rintro ⟨⟩) rfl rfl rfl
    exact h.closes hat hp ht hadv (.plumbClose1 htree hchild)
  | @plumbClose1 σ d _ _ _ htree hchild =>
    have hadv : Advances (d :: σ) .plumbClose1 (d :: σ) .run :=
      advances_close (by rintro ⟨⟩) rfl rfl rfl
    refine h.closes hat hp ht hadv ?_
    rw [piped_close]
    exact .run hchild
  | leaving _ => exact ⟨g, h.exits (exit_goes h.wired.between ht)⟩
  | user _ _ => exact h.users (hcall _) hp ht

theorem Inv.step (hcall : ∀ u, P.call u ≠ .pipe) (hlines : ∀ text ∈ lines, nul ∉ text)
    (h : Inv lines g m) {a : Move} (ht : step (withShell P) m a = .ok m') :
    ∃ g, Inv lines g m' := by
  cases a with
  | call p e =>
    rw [Plumbing.step] at ht
    split at ht
    · cases ht
    next x hx => exact h.call hcall hlines hx ht
  | reap q =>
    rw [Plumbing.step] at ht
    split_ifs at ht with hq
    obtain rfl := Except.ok.inj ht
    have hbury := h.bury (q := q)
    rw [show update m.parent q none = m.parent from hq.2 ▸ update_eq_self q m.parent] at hbury
    exact ⟨g, hbury⟩

end Xv6Container.Plumbing
