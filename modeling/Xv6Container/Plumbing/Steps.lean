import Xv6Container.Plumbing.Births

/-! One call of a process of a shell. -/

namespace Xv6Container.Plumbing

open Function Names
open Files (Between Tabled Lowest)
open Shell (Tree nul fork1)

variable {U : Type} {P : Programs U} {lines : List (List Char)} {m m' : Machine (Task U)}
  {p q : Slot} {e : Env} {g : Wiring} {σ σ' τ : Path} {st st' : Stage} {next : Code} {fd : ℕ}
  {W : Fd → Option Wire}

/-! ### Where things are -/

/-- Two children of a node have nothing below them in common. -/
theorem suffix_inj {d d' : ℕ} (h : d :: σ <:+ τ) (h' : d' :: σ <:+ τ) : d = d' := by
  have hsuffix := List.suffix_of_suffix_length_le h h' (le_refl _)
  have heq := hsuffix.eq_of_length rfl
  exact (List.cons.inj heq).1

theorem not_below (d : ℕ) (σ : Path) : ¬ d :: σ <:+ σ := by
  intro h
  have := h.length_le
  rw [List.length_cons] at this
  omega

theorem above_env : Above σ (standard (env lines σ)) := by
  intro fd w hw n hn
  rw [standard] at hw
  split_ifs at hw
  obtain rfl := Option.some.inj hw
  obtain ⟨d, hd⟩ := env_above hn
  exact (List.suffix_cons d n).trans hd

theorem Above.update {o : Option Wire} {fd : Fd} (h : Above σ W)
    (ho : ∀ w, o = some w → ∀ n, w.node = some n → n <:+ σ) : Above σ (update W fd o) := by
  intro fd' w hw
  by_cases hfd : fd' = fd
  · rw [hfd, update_self] at hw
    exact ho w hw
  · rw [update_of_ne hfd] at hw
    exact h fd' w hw

theorem Above.close {fd : Fd} (h : Above σ W) : Above σ (Function.update W fd none) :=
  h.update (by rintro w ⟨⟩)

theorem Above.deeper (h : Above σ W) (hσ : σ <:+ τ) : Above τ W :=
  fun fd w hw n hn => (h fd w hw n hn).trans hσ

theorem above_piped : Above σ (piped (env lines σ) σ) := by
  refine (above_env.update ?_).update ?_
  · rintro w hw n hn
    obtain rfl := Option.some.inj hw
    obtain rfl := Option.some.inj hn
    exact List.suffix_refl _
  · rintro w hw n hn
    obtain rfl := Option.some.inj hw
    obtain rfl := Option.some.inj hn
    exact List.suffix_refl _

theorem above_plumbed {d : ℕ} : Above (d :: σ) (piped (env lines (d :: σ)) σ) := by
  refine (above_env.update ?_).update ?_
  · rintro w hw n hn
    obtain rfl := Option.some.inj hw
    obtain rfl := Option.some.inj hn
    exact List.suffix_cons d σ
  · rintro w hw n hn
    obtain rfl := Option.some.inj hw
    obtain rfl := Option.some.inj hn
    exact List.suffix_cons d σ

theorem Stands.above {x : Task U} (h : Stands lines σ W st x) : Above σ W := by
  cases h with
  | main | mainWait =>
    have hroot : Above [] (standard (env lines [])) := above_env
    exact hroot
  | run h => exact above_env
  | opens hfd h => exact above_env.close
  | listWait h => exact above_env
  | pipeLeft h => exact above_piped
  | pipeRight h => exact above_piped
  | close0 h => exact above_piped
  | close1 h => exact above_piped.close
  | wait2 h => exact above_env
  | wait1 h => exact above_env
  | plumbClose w h ht => exact above_piped.deeper (List.suffix_cons _ _)
  | plumbDup w h ht => exact above_piped.close.deeper (List.suffix_cons _ _)
  | plumbClose0 h ht => exact above_plumbed
  | plumbClose1 h ht => exact above_plumbed.close
  | leaving h => exact h
  | user h hW =>
    intro fd w hw n hn
    obtain ⟨i, -, rfl⟩ | ⟨f, rfl⟩ := hW fd w hw
    · obtain ⟨d, hd⟩ := env_above hn
      exact (List.suffix_cons d n).trans hd
    · cases hn

theorem env_target {left right : Tree} (h : treeAt lines σ = some (.pipe left right)) (w : Bool) :
    env lines (side w :: σ) = Function.update (env lines σ) (target w) (.pipe σ w) := by
  rw [env, h, Option.elim_some]
  cases w with
  | _ => rfl

theorem advances_leaving (h : st ≠ .user) : Advances σ st σ .leaving where
  deeper := List.suffix_refl _
  user hst := absurd hst h
  todo := Set.empty_subset _
  maxKids := maxKids_le st
  kidAt _ _ _ := trivial

theorem Splits.advances {stq : Stage} (h : Splits σ st st' τ stq) : Advances σ st σ st' where
  deeper := List.suffix_refl _
  user hst := ⟨rfl, h.user hst⟩
  todo := h.parent
  maxKids := by
    obtain hmax | rfl | rfl := h.maxKids
    · exact Nat.le_of_succ_le hmax
    · exact maxKids_le st
    · exact maxKids_le st
  kidAt := h.kidAt

/-! ### Calls of the shell -/

theorem map_update {β γ : Type} (f : β → γ) (T : Fd → Option β) (a : Fd) (o : Option β) :
    (fun b => (update T a o b).map f) = update (fun b => (T b).map f) a (o.map f) := by
  funext b
  by_cases hb : b = a
  · rw [hb, update_self, update_self]
  · rw [update_of_ne hb, update_of_ne hb]

theorem Inv.closes {fd : Fd} (h : Inv lines g m) (hat : g.At p σ st W)
    (hp : m.task p = some (.shell (.close fd next)))
    (ht : m.close (withShell P) p (.shell (.close fd next)) fd = .ok m')
    (hadv : Advances σ st σ' st')
    (hstands : Stands lines σ' (update W fd none) st' (.shell next : Task U)) :
    ∃ g, Inv lines g m' := by
  obtain ⟨rfl, rfl, rfl⟩ := hat
  obtain ⟨a, hgo⟩ := close_goes h.wired.between (h.wired.cwd p _ hp) ht
  rw [argfd_val, Option.elim_some, h.wired.table p _ hp] at hgo
  refine ⟨_, h.goes hp hgo hadv (map_update g.file (g.wires p) fd none).symm (fun b w hw => ?_)
    hstands⟩
  by_cases hb : b = fd
  · rw [hb, update_self] at hw
    cases hw
  · rw [update_of_ne hb] at hw
    exact ⟨b, hw⟩

theorem Inv.dups {a b : Fd} (h : Inv lines g m) (hat : g.At p σ st W)
    (hp : m.task p = some (.shell (.dup a next)))
    (ht : m.dup (withShell P) p (.shell (.dup a next)) a = .ok m') (ha : W a ≠ none)
    (hb : Lowest W b) (hadv : Advances σ st σ' st')
    (hstands : Stands lines σ' (update W b (W a)) st' (.shell next : Task U)) :
    ∃ g, Inv lines g m' := by
  obtain ⟨rfl, rfl, rfl⟩ := hat
  obtain ⟨answer, T, hdup, hgo⟩ := dup_goes h.wired.between (h.wired.cwd p _ hp) ht
  have htable := h.wired.table p _ hp
  have hlow : Lowest (m.files.table p) b := htable ▸ Files.lowest_map.2 hb
  cases hdup with
  | same hsame =>
    obtain hnone | hfull := hsame a (argfd_val a)
    · rw [htable] at hnone
      exact absurd (Option.map_eq_none_iff.1 hnone) ha
    · exact absurd hlow.1 (hfull b)
  | @copy a' b' ha' _ hb' =>
    obtain rfl := Option.some.inj ((argfd_val a).symm.trans ha')
    obtain rfl := hlow.unique hb'
    rw [htable] at hgo
    refine ⟨_, h.goes hp hgo hadv (map_update g.file _ _ _).symm (fun c w hw => ?_) hstands⟩
    by_cases hc : c = b
    · rw [hc, update_self] at hw
      exact ⟨a, hw⟩
    · rw [update_of_ne hc] at hw
      exact ⟨c, hw⟩

theorem Inv.chdirs {path : Fs.CString} (h : Inv lines g m) (hat : g.At p σ st W)
    (hp : m.task p = some (.shell (.chdir path next)))
    (ht : m.chdir (withShell P) p (.shell (.chdir path next)) path = .ok m')
    (hadv : Advances σ st σ' st')
    (hstands : Stands lines σ' W st' (.shell next : Task U)) : ∃ g, Inv lines g m' := by
  obtain ⟨rfl, rfl, rfl⟩ := hat
  obtain ⟨a, hgo⟩ := chdir_goes h.wired.between (h.wired.cwd p _ hp) ht
  exact ⟨_, h.goes hp hgo hadv (h.wired.table p _ hp) (fun b w hw => ⟨b, hw⟩) hstands⟩

/-- A wire that is still to be made is in nobody's hands. -/
theorem Inv.ne_of_holds {w w' : Wire} (h : Inv lines g m) {x : Task U} (hp : m.task p = some x)
    (hw : Holds g m w) (hnode : w'.node = some τ) (htodo : τ ∈ todo (g.place p) (g.stage p)) :
    w ≠ w' := by
  rintro rfl
  exact h.placed.made p x w τ hp hw hnode htodo

/-- A process that gives up. -/
theorem Inv.gives {y y' : Task U} {T : Fd → Option FileId} (h : Inv lines g m)
    (hp : m.task p = some y) (hst : g.stage p ≠ .user) (hgo : Goes p T y' m m')
    (hT : T = m.files.table p) (hexit : y' = .shell .exit) : ∃ g, Inv lines g m' := by
  subst hexit
  exact ⟨_, h.goes hp hgo (advances_leaving hst) (hT.trans (h.wired.table p _ hp))
    (fun b w hw => ⟨b, hw⟩) (.leaving (h.placed.stands p _ hp).above)⟩

theorem Inv.opens {fd : Fd} {path : Fs.CString} {omode : UInt32} {next : ℤ → Code}
    (h : Inv lines g m) (hat : g.At p σ st W)
    (hp : m.task p = some (.shell (.open_ path omode next)))
    (ht : m.open_ (withShell P) p (.shell (.open_ path omode next)) path omode = .ok m')
    (hlow : Lowest W fd) (htodo : σ ∈ todo σ st) (hdone : σ ∉ todo σ' st')
    (hadv : Advances σ st σ' st') (hst : st ≠ .user)
    (hstands : ∀ r, ¬ r < 0 → Stands lines σ' (update W fd (some (.file σ))) st'
      (.shell (next r) : Task U))
    (hfails : ∀ r < 0, next r = .exit) : ∃ g, Inv lines g m' := by
  obtain ⟨rfl, rfl, rfl⟩ := hat
  have htable := h.wired.table p _ hp
  obtain ⟨a, hneg, hgo⟩ | ⟨a, fd', f, hpos, href, hpipe, hlow', hgo⟩ :=
    open_goes h.wired.between (h.wired.cwd p _ hp) ht
  · exact h.gives hp hst hgo rfl (congrArg Task.shell (hfails _ hneg))
  · rw [htable] at hlow'
    obtain rfl := hlow.unique (Files.lowest_map.1 hlow')
    have hfile : ∀ w, Holds g m w → update g.file (.file (g.place p)) f w = g.file w :=
      fun w hw => update_of_ne (h.ne_of_holds hp hw rfl htodo) ..
    rw [htable] at hgo
    refine ⟨{ g.move p σ' st' (update (g.wires p) fd (some (.file (g.place p)))) with
      file := update g.file (.file (g.place p)) f }, h.makes σ' hp hgo hadv ?_ rfl rfl rfl
        hfile (fun _ _ _ => rfl) (fun f' => ?_) (hstands _ hpos) fun b w hw => ?_⟩
    · refine Eq.trans ?_ (map_update _ _ _ _).symm
      dsimp only
      rw [Option.map_some, update_self]
      congr 1
      funext b
      cases hb : g.wires p b with
      | none => rfl
      | some w => exact congrArg some (hfile w ⟨p, _, b, hp, hb⟩).symm
    · have hne : (.own f' : Wire) ≠ .file (g.place p) := by rintro ⟨⟩
      dsimp only
      rw [update_of_ne hne, h.wired.own]
    · by_cases hb : b = fd
      · rw [hb, update_self] at hw
        obtain rfl := Option.some.inj hw
        refine .inr ⟨⟨?_, by rintro τ b ⟨⟩⟩, ?_⟩
        · show m'.files.pipe (update g.file (.file (g.place p)) f (.file (g.place p))) = none
          rw [update_self]
          exact hpipe
        · rintro τ ⟨⟩
          exact ⟨htodo, hdone⟩
      · rw [update_of_ne hb] at hw
        exact .inl ⟨p, _, b, hp, hw⟩

theorem Inv.pipes {next : ℤ → Fd × Fd → Code} {a b : Fd} (h : Inv lines g m)
    (hat : g.At p σ st W) (hp : m.task p = some (.shell (.pipe next)))
    (ht : m.pipe (withShell P) p (.shell (.pipe next)) = .ok m') (ha : Lowest W a)
    (hb : Lowest (update W a (some (.pipe σ false))) b) (htodo : σ ∈ todo σ st)
    (hdone : σ ∉ todo σ' st') (hadv : Advances σ st σ' st') (hst : st ≠ .user)
    (hstands : Stands lines σ' (update (update W a (some (.pipe σ false))) b
      (some (.pipe σ true))) st' (.shell (next 0 (a, b)) : Task U))
    (hfails : ∀ r < 0, ∀ fds, next r fds = .exit) : ∃ g, Inv lines g m' := by
  obtain ⟨rfl, rfl, rfl⟩ := hat
  have htable := h.wired.table p _ hp
  obtain ⟨answer, hneg, hgo⟩ | ⟨a', b', f, k, hnew, ha', hb', hgo⟩ :=
    pipe_goes h.wired.between (h.wired.cwd p _ hp) ht
  · exact h.gives hp hst hgo rfl (congrArg Task.shell (hfails _ hneg _))
  · rw [htable] at ha' hb' hgo
    obtain rfl := ha.unique (Files.lowest_map.1 ha')
    obtain rfl : b = b' := by
      refine hb.unique (hb'.congr fun fd => ?_)
      by_cases hfd : fd = a
      · rw [hfd, update_self, update_self]
        exact iff_of_false (by rintro ⟨⟩) (by rintro ⟨⟩)
      · rw [update_of_ne hfd, update_of_ne hfd]
        exact Option.map_eq_none_iff
    obtain ⟨pg, hfree, hf, hk⟩ := hnew.made
    obtain ⟨W, hW⟩ : ∃ W, W = update (update (g.wires p) a (some (.pipe (g.place p) false))) b
      (some (.pipe (g.place p) true)) := ⟨_, rfl⟩
    rw [← hW] at hstands
    obtain ⟨file, hfiledef⟩ : ∃ file, file = update (update g.file (.pipe (g.place p) false) f)
      (.pipe (g.place p) true) k := ⟨_, rfl⟩
    have hne : (.pipe (g.place p) false : Wire) ≠ .pipe (g.place p) true := by
      intro heq
      cases (Wire.pipe.inj heq).2
    have hreader : file (.pipe (g.place p) false) = f := by
      rw [hfiledef, update_of_ne hne, update_self]
    have hwriter : file (.pipe (g.place p) true) = k := by
      rw [hfiledef, update_self]
    have hfile : ∀ w, Holds g m w → file w = g.file w := by
      intro w hw
      rw [hfiledef, update_of_ne (h.ne_of_holds hp hw rfl htodo),
        update_of_ne (h.ne_of_holds hp hw rfl htodo)]
    have hpage : ∀ τ c, Holds g m (.pipe τ c) → g.page τ ≠ pg := by
      rintro τ c hw rfl
      exact h.wired.pipes hw hfree
    refine ⟨{ g.move p σ' st' W with
      file := file
      page := update g.page (g.place p) pg }, h.makes (g.place p) hp hgo hadv ?_ rfl rfl rfl
        hfile (fun τ c hw => ?_) (fun f' => ?_) hstands fun d w hw => ?_⟩
    · rw [hW, map_update, map_update]
      dsimp only
      rw [Option.map_some, Option.map_some, hreader, hwriter]
      congr 2
      funext d
      cases hd : g.wires p d with
      | none => rfl
      | some w => exact congrArg some (hfile w ⟨p, _, d, hp, hd⟩).symm
    · have hτ : τ ≠ g.place p := by
        rintro rfl
        exact h.ne_of_holds hp hw rfl htodo rfl
      exact update_of_ne hτ ..
    · have hne0 : (.own f' : Wire) ≠ .pipe (g.place p) false := by rintro ⟨⟩
      have hne1 : (.own f' : Wire) ≠ .pipe (g.place p) true := by rintro ⟨⟩
      rw [hfiledef]
      dsimp only
      rw [update_of_ne hne1, update_of_ne hne0, h.wired.own]
    · have hend : ∀ c, m'.files.endOf (file (.pipe (g.place p) c)) =
          some (update g.page (g.place p) pg (g.place p), c) := by
        intro c
        rw [update_self]
        cases c with
        | false => rw [hreader, hf]
        | true => rw [hwriter, hk]
      have hnewpipe : ∀ c, w = .pipe (g.place p) c → New g { g.move p σ' st' W with
          file := file
          page := update g.page (g.place p) pg } m m' (g.place p) w ∧ ∀ τ, w.node = some τ →
            τ ∈ todo (g.place p) (g.stage p) ∧ τ ∉ todo σ' st' := by
        rintro c rfl
        refine ⟨⟨hend c, ?_⟩, ?_⟩
        · rintro τ c' heq
          obtain ⟨rfl, -⟩ := Wire.pipe.inj heq
          refine ⟨rfl, fun τ' c'' hw => ?_⟩
          dsimp only
          rw [update_self]
          exact hpage τ' c'' hw
        · rintro τ ⟨⟩
          exact ⟨htodo, hdone⟩
      rw [hW] at hw
      by_cases hd : d = b
      · rw [hd, update_self] at hw
        exact .inr (hnewpipe true (Option.some.inj hw).symm)
      · rw [update_of_ne hd] at hw
        by_cases hd : d = a
        · rw [hd, update_self] at hw
          exact .inr (hnewpipe false (Option.some.inj hw).symm)
        · rw [update_of_ne hd] at hw
          exact .inl ⟨p, _, d, hp, hw⟩

/-! ### `fork` and `exec` in the shell -/

theorem Inv.shellForks {next : ℤ → Code} {stq : Stage} (h : Inv lines g m)
    (hat : g.At p σ st W) (hp : m.task p = some (.shell (afterFork1 next)))
    (ht : m.fork (withShell P) p (.shell (afterFork1 next)) e = .ok m')
    (hst : st ≠ .user) (hsplit : Splits σ st st' τ stq)
    (hparent : ∀ r, r ≠ 0 → Stands lines σ W st' (.shell (next r) : Task U))
    (hchild : Stands lines τ W stq (.shell (next 0) : Task U)) : ∃ g, Inv lines g m' := by
  obtain ⟨rfl, rfl, rfl⟩ := hat
  have htable := h.wired.table p _ hp
  obtain ⟨a, hneg, hgo⟩ | ⟨q, hforks⟩ := fork_goes h.wired.between (h.wired.cwd p _ hp) ht
  · by_cases hr : a.ret = -1
    · have hresume : (withShell P).resume (.shell (afterFork1 next)) a = .shell .exit :=
        congrArg Task.shell (resume_afterFork1.trans (if_pos hr))
      exact h.gives hp hst hgo rfl hresume
    · have hresume : (withShell P).resume (.shell (afterFork1 next)) a = .shell (next a.ret) :=
        congrArg Task.shell (resume_afterFork1.trans (if_neg hr))
      rw [hresume] at hgo
      exact ⟨_, h.goes hp hgo hsplit.advances htable (fun b w hw => ⟨b, hw⟩)
        (hparent a.ret hneg.ne)⟩
  · have hpos := h.family.positive
    have hone : ((m.nextpid : ℤ) ≠ -1) := by omega
    have hresume : (withShell P).resume (.shell (afterFork1 next)) { ret := m.nextpid } =
        .shell (next m.nextpid) :=
      congrArg Task.shell (resume_afterFork1.trans (if_neg hone))
    rw [hresume] at hforks
    exact h.forks hp hforks hsplit (hparent _ (by omega)) hchild

theorem Inv.execs {path : Fs.CString} {argv : List (List Char)} (h : Inv lines g m)
    (hat : g.At p σ .run (standard (env lines σ)))
    (hp : m.task p = some (.shell (.exec argv .exit)))
    (ht : m.exec (withShell P) p (.shell (.exec argv .exit)) path argv e = .ok m')
    (htree : treeAt lines σ = some (.exec argv)) : ∃ g, Inv lines g m' := by
  obtain ⟨rfl, hst, hwires⟩ := hat
  obtain ⟨x', rfl | ⟨a, rfl⟩, hgo⟩ := exec_goes h.wired.between (h.wired.cwd p _ hp) ht
  · have hadv : Advances (g.place p) (g.stage p) (g.place p) .user := by
      rw [hst]
      exact ⟨List.suffix_refl _, by rintro ⟨⟩, Set.empty_subset _, Nat.zero_le _,
        fun _ _ hkid => hkid.elim⟩
    refine ⟨_, h.goes hp hgo hadv (h.wired.table p _ hp) (fun b w hw => ⟨b, hw⟩)
      (.user htree fun fd w hw => ?_)⟩
    rw [hwires, standard] at hw
    split_ifs at hw with hlt
    exact .inl ⟨fd, hlt, (Option.some.inj hw).symm⟩
  · exact h.gives hp (by rw [hst]; rintro ⟨⟩) hgo rfl rfl

/-! ### Programs -/

theorem Stands.of_user {u : U} (h : Stands lines σ W st (.user u)) :
    st = .user ∧ (∃ argv, treeAt lines σ = some (.exec argv)) ∧ Kept (env lines σ) W := by
  cases h with
  | user h hW => exact ⟨rfl, ⟨_, h⟩, hW⟩

theorem advances_user (h : st = .user) : Advances σ st σ .user := by
  rw [h]
  exact ⟨List.suffix_refl _, fun _ => ⟨rfl, rfl⟩, subset_rfl, le_refl _, fun _ _ => id⟩

/-- A program goes on with descriptors that it has had. -/
theorem Inv.userGoes {u u' : U} {T : Fd → Option FileId} (h : Inv lines g m)
    (hp : m.task p = some (.user u)) (hgo : Goes p T (.user u') m m')
    (hT : T = fun fd => (W fd).map g.file)
    (hW : ∀ fd w, W fd = some w → ∃ fd', g.wires p fd' = some w) : ∃ g, Inv lines g m' := by
  obtain ⟨hst, ⟨argv, htree⟩, hkept⟩ := (h.placed.stands p _ hp).of_user
  refine ⟨_, h.goes hp hgo (advances_user hst) hT hW (.user htree fun fd w hw => ?_)⟩
  obtain ⟨fd', hfd'⟩ := hW fd w hw
  exact hkept fd' w hfd'

theorem Inv.userOpens {u : U} {path : Fs.CString} {omode : UInt32} (h : Inv lines g m)
    (hp : m.task p = some (.user u))
    (ht : m.open_ (withShell P) p (.user u) path omode = .ok m') : ∃ g, Inv lines g m' := by
  have htable := h.wired.table p _ hp
  obtain ⟨a, -, hgo⟩ | ⟨a, fd, f, -, -, hpipe, -, hgo⟩ :=
    open_goes h.wired.between (h.wired.cwd p _ hp) ht
  · exact h.userGoes hp hgo htable fun b w hw => ⟨b, hw⟩
  · obtain ⟨hst, ⟨argv, htree⟩, hkept⟩ := (h.placed.stands p _ hp).of_user
    have hwire : ∀ b w, update (g.wires p) fd (some (.own f)) b = some w →
        w = .own f ∨ g.wires p b = some w := by
      intro b w hw
      by_cases hb : b = fd
      · rw [hb, update_self] at hw
        exact .inl (Option.some.inj hw).symm
      · rw [update_of_ne hb] at hw
        exact .inr hw
    refine ⟨g.move p (g.place p) .user (update (g.wires p) fd (some (.own f))),
      h.makes [] hp hgo (advances_user hst) ?_ rfl rfl rfl (fun _ _ => rfl)
        (fun _ _ _ => rfl) h.wired.own (.user htree fun b w hw => ?_) fun b w hw => ?_⟩
    · rw [htable, map_update, Option.map_some]
      dsimp only [Wiring.move]
      rw [h.wired.own]
    · obtain rfl | hw := hwire b w hw
      · exact .inr ⟨f, rfl⟩
      · exact hkept b w hw
    · obtain rfl | hw := hwire b w hw
      · refine .inr ⟨⟨?_, by rintro τ b ⟨⟩⟩, by rintro τ ⟨⟩⟩
        show m'.files.pipe (g.file (.own f)) = none
        rw [h.wired.own]
        exact hpipe
      · exact .inl ⟨p, _, b, hp, hw⟩

/-- A program makes a call. -/
theorem Inv.users {u : U} (hcall : P.call u ≠ .pipe) (h : Inv lines g m)
    (hp : m.task p = some (.user u))
    (ht : m.callStep (withShell P) p (.user u) e (P.call u) = .ok m') : ∃ g, Inv lines g m' := by
  have htable := h.wired.table p _ hp
  have hcwd := h.wired.cwd p _ hp
  have hsame : ∀ fd w, g.wires p fd = some w → ∃ fd', g.wires p fd' = some w :=
    fun fd w hw => ⟨fd, hw⟩
  obtain ⟨hst, ⟨argv, htree⟩, hkept⟩ := (h.placed.stands p _ hp).of_user
  cases hc : P.call u with
  | open_ path omode =>
    rw [hc] at ht
    exact h.userOpens hp ht
  | close fd =>
    rw [hc] at ht
    obtain ⟨a, hgo⟩ := close_goes h.wired.between hcwd ht
    cases hfd : argfd fd with
    | none =>
      rw [hfd] at hgo
      exact h.userGoes hp hgo htable hsame
    | some fd =>
      rw [hfd, Option.elim_some, htable] at hgo
      refine h.userGoes hp hgo (map_update g.file (g.wires p) fd none).symm fun b w hw => ?_
      by_cases hb : b = fd
      · rw [hb, update_self] at hw
        cases hw
      · rw [update_of_ne hb] at hw
        exact ⟨b, hw⟩
  | dup fd =>
    rw [hc] at ht
    obtain ⟨a, T, hdup, hgo⟩ := dup_goes h.wired.between hcwd ht
    cases hdup with
    | same _ => exact h.userGoes hp hgo htable hsame
    | @copy a b ha _ _ =>
      rw [htable] at hgo
      refine h.userGoes hp hgo (map_update g.file _ _ _).symm fun c w hw => ?_
      by_cases hc : c = b
      · rw [hc, update_self] at hw
        exact ⟨a, hw⟩
      · rw [update_of_ne hc] at hw
        exact ⟨c, hw⟩
  | pipe => exact absurd hc hcall
  | chdir path =>
    rw [hc] at ht
    obtain ⟨a, hgo⟩ := chdir_goes h.wired.between hcwd ht
    exact h.userGoes hp hgo htable hsame
  | read fd n =>
    rw [hc] at ht
    obtain ⟨a, hgo⟩ := read_goes h.wired.between hcwd ht
    exact h.userGoes hp hgo htable hsame
  | write fd addr n =>
    rw [hc] at ht
    obtain ⟨x', rfl | ⟨a, rfl⟩, hgo⟩ := write_goes h.wired.between hcwd hp ht
    · exact h.userGoes hp hgo htable hsame
    · exact h.userGoes hp hgo htable hsame
  | fork =>
    rw [hc] at ht
    obtain ⟨a, -, hgo⟩ | ⟨q, hforks⟩ := fork_goes h.wired.between hcwd ht
    · exact h.userGoes hp hgo htable hsame
    · have hsplit : Splits (g.place p) (g.stage p) .user (g.place p) .user := by
        rw [hst]
        exact ⟨fun _ => rfl, subset_rfl, subset_rfl, fun k hk => hk.elim, .inr (.inl rfl),
          fun _ _ => id, rfl, rfl⟩
      exact h.forks hp hforks hsplit (.user htree hkept) (.user htree hkept)
  | wait =>
    rw [hc] at ht
    have hwait : Awaits (g.place p) (g.stage p) (g.place p) .user := by
      rw [hst]
      exact ⟨List.suffix_refl _, fun _ => ⟨rfl, rfl⟩, subset_rfl, Nat.le_succ _,
        .inr fun _ _ => id⟩
    exact h.waits hp ht hwait fun a => .user htree hkept
  | exec path argv =>
    rw [hc] at ht
    obtain ⟨x', rfl | ⟨a, rfl⟩, hgo⟩ := exec_goes h.wired.between hcwd ht
    · exact h.userGoes hp hgo htable hsame
    · exact h.userGoes hp hgo htable hsame
  | exit =>
    rw [hc] at ht
    exact ⟨g, h.exits (exit_goes h.wired.between ht)⟩

end Xv6Container.Plumbing
