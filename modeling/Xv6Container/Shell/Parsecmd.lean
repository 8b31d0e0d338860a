import Xv6Container.Shell.Complete
import Xv6Container.Shell.Strings

/-! `parsecmd` comes to an end: it returns the tree of the command line if that has a derivation, and
panics otherwise. -/

namespace Xv6Container.Shell

variable {text : List Char} {s q eq j fuel : ℕ} {cmd : Cmd}

/-! ### Fuel -/

theorem gettoken_length (htext : nul ∉ text) (hs : s ≤ text.length) {tok : Char}
    (h : gettoken text s = (tok, q, eq, j)) : j ≤ text.length ∧
      (rest text j).length ≤ (rest text s).length ∧
      (rest text s ≠ [] → (rest text j).length < (rest text s).length) := by
  obtain ⟨hj, ⟨hnil, hnil', -⟩ | ⟨t, hcons, -⟩⟩ := gettoken_spec htext hs h
  · rw [hnil, hnil']
    exact ⟨hj, le_refl _, fun hne => absurd rfl hne⟩
  · rw [hcons, List.length_cons]
    exact ⟨hj, Nat.le_succ _, fun _ => Nat.lt_succ_self _⟩

theorem leads_ne_nil {toks : List Char} {ts : List Token} (h : leads toks ts = true) : ts ≠ [] := by
  rintro rfl
  exact nomatch h

theorem bind_ne_fuel {α β : Type} {x : Except Stop α} {f : α → Except Stop β}
    (hx : x ≠ .error .fuel) (hf : ∀ a, x = .ok a → f a ≠ .error .fuel) :
    (x >>= f) ≠ .error .fuel := by
  cases x with
  | error e =>
    intro h
    exact hx (congrArg Except.error (Except.error.inj h))
  | ok a => exact hf a rfl

theorem parseredirs_ne_fuel (htext : nul ∉ text) (hs : s ≤ text.length)
    (hfuel : (rest text s).length < fuel) : parseredirs text fuel cmd s ≠ .error .fuel := by
  induction fuel generalizing cmd s with
  | zero => omega
  | succ fuel ih =>
    rw [parseredirs]
    rcases hpeek : peek text s ['<', '>'] with ⟨more, s₁⟩
    obtain ⟨hs₁, hrest₁, hlead⟩ := peek_spec htext hs (by decide) hpeek
    cases more with
    | false => rintro ⟨⟩
    | true =>
      rcases htok : gettoken text s₁ with ⟨tok, q₀, eq₀, s₂⟩
      obtain ⟨hs₂, -, hlt⟩ := gettoken_length htext hs₁ htok
      rcases hword : gettoken text s₂ with ⟨w, q, eq, s₃⟩
      obtain ⟨hs₃, hle, -⟩ := gettoken_length htext hs₂ hword
      rw [hrest₁] at hlt
      have hlt := hlt (leads_ne_nil hlead)
      simp only [htok, hword, if_true]
      split_ifs
      all_goals first | exact ih hs₃ (by omega) | rintro ⟨⟩

theorem argLoop_ne_fuel (htext : nul ∉ text) {argc : ℕ} (hs : s ≤ text.length)
    (hcmd : cmd.Spelled text) (hfuel : (rest text s).length < fuel) :
    argLoop text fuel argc cmd s ≠ .error .fuel := by
  induction fuel generalizing cmd s argc with
  | zero => omega
  | succ fuel ih =>
    rw [argLoop]
    rcases hpeek : peek text s ['|', ')', '&', ';'] with ⟨stop, s₁⟩
    obtain ⟨hs₁, hrest₁, -⟩ := peek_spec htext hs (by decide) hpeek
    cases stop with
    | true => rintro ⟨⟩
    | false =>
      rcases htok : gettoken text s₁ with ⟨tok, q, eq, s₂⟩
      obtain ⟨hs₂, htok'⟩ := gettoken_spec htext hs₁ htok
      simp only [htok, Bool.false_eq_true, if_false]
      rw [hrest₁] at htok'
      obtain ⟨-, -, hnul⟩ | ⟨t, hcons, hcode, hspell⟩ := htok'
      · rw [if_pos hnul]
        rintro ⟨⟩
      rw [hcons, List.length_cons] at hfuel
      rw [if_neg (hcode ▸ code_ne_nul t)]
      by_cases hw : tok = 'a'
      · rw [if_neg (not_not.2 hw)]
        split_ifs with hmany
        · rintro ⟨⟩
        obtain ⟨wd, rfl⟩ := code_eq_a.1 (hcode.symm.trans hw)
        have hspell := hspell wd rfl
        have hq : Spells text q eq (wordAt text q) :=
          ⟨rfl, by rw [wordAt, hspell.1]; exact hspell.2⟩
        refine bind_ne_fuel (parseredirs_ne_fuel htext hs₂ (by omega)) ?_
        rintro ⟨cmd₁, s₃⟩ hredirs
        obtain ⟨hs₃, hcmd₁, rs, hrs, -⟩ :=
          parseredirs_sound htext hs₂ (spelled_addArg hcmd hq) hredirs
        rw [hrs, List.length_append] at hfuel
        exact ih hs₃ hcmd₁ (by omega : (rest text s₃).length < fuel)
      · rw [if_pos hw]
        rintro ⟨⟩

theorem backLoop_ne_fuel (htext : nul ∉ text) (hs : s ≤ text.length)
    (hfuel : (rest text s).length < fuel) : backLoop text fuel cmd s ≠ .error .fuel := by
  induction fuel generalizing cmd s with
  | zero => omega
  | succ fuel ih =>
    rw [backLoop]
    rcases hpeek : peek text s ['&'] with ⟨more, s₁⟩
    cases more with
    | false => rintro ⟨⟩
    | true =>
      rcases htok : gettoken text s₁ with ⟨tok, q, eq, s₂⟩
      obtain ⟨hs₂, hrest⟩ := next_single htext hs (by decide : Token.amp.Single) hpeek htok
      simp only [htok, if_true]
      rw [hrest, List.length_cons] at hfuel
      exact ih hs₂ (by omega)

theorem parse_ne_fuel (htext : nul ∉ text) (fuel : ℕ) :
    (∀ s, s ≤ text.length → 4 * (rest text s).length + 4 ≤ fuel →
      parseline text fuel s ≠ .error .fuel) ∧
    (∀ s, s ≤ text.length → 4 * (rest text s).length + 3 ≤ fuel →
      parsepipe text fuel s ≠ .error .fuel) ∧
    (∀ s, s ≤ text.length → 4 * (rest text s).length + 1 ≤ fuel →
      parseblock text fuel s ≠ .error .fuel) ∧
    ∀ s, s ≤ text.length → 4 * (rest text s).length + 2 ≤ fuel →
      parseexec text fuel s ≠ .error .fuel := by
  induction fuel with
  | zero =>
    refine ⟨?_, ?_, ?_, ?_⟩
    all_goals
      intro s _ hfuel
      omega
  | succ fuel ih =>
    obtain ⟨ihline, ihpipe, ihblock, ihexec⟩ := ih
    obtain ⟨soundline, soundpipe, -, soundexec⟩ := parse_sound htext fuel
    refine ⟨fun s hs hfuel => ?_, fun s hs hfuel => ?_, fun s hs hfuel => ?_,
      fun s hs hfuel => ?_⟩
    · rw [parseline]
      refine bind_ne_fuel (ihpipe s hs (by omega)) ?_
      rintro ⟨cmd₁, s₁⟩ hpipe
      obtain ⟨hs₁, hcmd₁, ts, hts, -⟩ := soundpipe s cmd₁ s₁ hs hpipe
      rw [hts, List.length_append] at hfuel
      refine bind_ne_fuel (backLoop_ne_fuel htext hs₁ (by omega)) ?_
      rintro ⟨cmd₂, s₂⟩ hback
      obtain ⟨hs₂, -, k, hk, -⟩ := backLoop_sound htext hs₁ hcmd₁ hback
      rcases hpeek : peek text s₂ [';'] with ⟨more, s₃⟩
      dsimp only
      rw [hpeek]
      cases more with
      | false => rintro ⟨⟩
      | true =>
        rcases htok : gettoken text s₃ with ⟨tok, q, eq, s₄⟩
        obtain ⟨hs₄, hrest⟩ := next_single htext hs₂ (by decide : Token.semi.Single) hpeek htok
        rw [if_pos rfl]
        rw [hk, hrest, List.length_append, List.length_cons] at hfuel
        exact bind_ne_fuel (ihline s₄ hs₄ (by omega)) fun a _ => by rintro ⟨⟩
    · rw [parsepipe]
      refine bind_ne_fuel (ihexec s hs (by omega)) ?_
      rintro ⟨cmd₁, s₁⟩ hexec
      obtain ⟨hs₁, -, ts, hts, -⟩ := soundexec s cmd₁ s₁ hs hexec
      rcases hpeek : peek text s₁ ['|'] with ⟨more, s₂⟩
      dsimp only
      rw [hpeek]
      cases more with
      | false => rintro ⟨⟩
      | true =>
        rcases htok : gettoken text s₂ with ⟨tok, q, eq, s₃⟩
        obtain ⟨hs₃, hrest⟩ := next_single htext hs₁ (by decide : Token.bar.Single) hpeek htok
        rw [if_pos rfl]
        rw [hts, hrest, List.length_append, List.length_cons] at hfuel
        exact bind_ne_fuel (ihpipe s₃ hs₃ (by omega)) fun a _ => by rintro ⟨⟩
    · rw [parseblock]
      rcases hpeek : peek text s ['('] with ⟨more, s₁⟩
      cases more with
      | false => rintro ⟨⟩
      | true =>
        rcases htok : gettoken text s₁ with ⟨tok, q, eq, s₂⟩
        obtain ⟨hs₂, hrest⟩ := next_single htext hs (by decide : Token.lparen.Single) hpeek htok
        rw [hrest, List.length_cons] at hfuel
        simp only [htok, if_true]
        refine bind_ne_fuel (ihline s₂ hs₂ (by omega)) ?_
        rintro ⟨cmd₁, s₃⟩ hline
        obtain ⟨hs₃, -, ts, hts, -⟩ := soundline s₂ cmd₁ s₃ hs₂ hline
        rcases hpeek' : peek text s₃ [')'] with ⟨more', s₄⟩
        cases more' with
        | false => rintro ⟨⟩
        | true =>
          rcases htok' : gettoken text s₄ with ⟨tok', q', eq', s₅⟩
          obtain ⟨hs₅, hrest'⟩ :=
            next_single htext hs₃ (by decide : Token.rparen.Single) hpeek' htok'
          simp only [if_true]
          rw [hts, hrest', List.length_append, List.length_cons] at hfuel
          exact parseredirs_ne_fuel htext hs₅ (by omega)
    · rw [parseexec]
      rcases hpeek : peek text s ['('] with ⟨block, s₁⟩
      obtain ⟨hs₁, hrest₁, -⟩ := peek_spec htext hs (by decide) hpeek
      rw [← hrest₁] at hfuel
      cases block with
      | true => exact ihblock s₁ hs₁ (by omega)
      | false =>
        have hempty : (Cmd.exec []).Spelled text := fun a ha => by cases ha
        refine bind_ne_fuel (parseredirs_ne_fuel htext hs₁ (by omega)) ?_
        rintro ⟨ret, s₂⟩ hredirs
        obtain ⟨hs₂, hret, rs, hrs, -⟩ := parseredirs_sound htext hs₁ hempty hredirs
        rw [hrs, List.length_append] at hfuel
        exact argLoop_ne_fuel htext hs₂ hret (by omega)

theorem length_tokens (l : List Char) : (tokens l).length ≤ l.length := by
  induction l using tokens.induct with
  | case1 => simp [tokens]
  | case2 c l hc ih =>
    rw [tokens, if_pos hc, List.length_cons]
    omega
  | case3 l hnext hc ih =>
    rw [tokens, if_neg hc, if_pos rfl, if_pos hnext, List.length_cons, List.length_cons]
    rw [List.length_tail] at ih
    omega
  | case4 l hnext hc ih =>
    rw [tokens, if_neg hc, if_pos rfl, if_neg hnext, List.length_cons, List.length_cons]
    omega
  | case5 c l hc hgt t ht ih =>
    rw [tokens, if_neg hc, if_neg hgt, ht, List.length_cons, List.length_cons]
    omega
  | case6 c l hc hgt ht ih =>
    rw [tokens, if_neg hc, if_neg hgt, ht, List.length_cons, List.length_cons]
    have hle := (List.dropWhile_sublist inWord (l := l)).length_le
    omega

/-! ### The command line -/

theorem parsecmd_ne_fuel (htext : nul ∉ text) : parsecmd text ≠ .error .fuel := by
  have hlength := length_tokens text
  refine bind_ne_fuel ((parse_ne_fuel htext _).1 0 (Nat.zero_le _) ?_) ?_
  · rw [rest, List.drop_zero]
    omega
  · rintro ⟨cmd, s⟩ _
    rcases hpeek : peek text s [] with ⟨b, j⟩
    dsimp only
    split_ifs
    all_goals rintro ⟨⟩

/-- `parsecmd` returns a tree just for the lines of the grammar, the tree of the derivation with the
strings of its tokens; otherwise it panics. -/
theorem parsecmd_iff (htext : nul ∉ text) :
    (∀ t, Derives .line (tokens text) t ↔
      ∃ cmd buf, parsecmd text = .ok (cmd, buf) ∧ cmd.tree buf text.length = t) ∧
    ∀ e, parsecmd text = .error e → ∃ message, e = .panic message := by
  refine ⟨fun t => ⟨fun h => ?_, ?_⟩, fun e he => ?_⟩
  · have hlength := length_tokens text
    have hrest : rest text 0 = tokens text ++ [] := by
      rw [rest, List.drop_zero, List.append_nil]
    have hfuel : 4 * (rest text 0).length + Sym.line.depth ≤ 4 * text.length + 4 := by
      rw [hrest, List.append_nil, Sym.depth]
      omega
    obtain ⟨cmd, j, hparse, hj, hrest', hplain⟩ :=
      parse_complete htext h [] 0 _ (Nat.zero_le _) hrest (fun t ht => by cases ht) hfuel
    obtain ⟨-, hcmd, -⟩ := (parse_sound htext _).1 0 cmd j (Nat.zero_le _) hparse
    have hend := (peek_nil htext hj).2 hrest'
    refine ⟨cmd, nulterminate cmd (char text), ?_, (tree_nulterminate htext hcmd).trans hplain⟩
    have hparse : parseline text (4 * text.length + 4) 0 = .ok (cmd, j) := hparse
    rw [parsecmd, hparse]
    show (if (peek text j []).2 ≠ text.length then _ else _) = _
    rw [if_neg (not_not.2 hend)]
    rfl
  · rintro ⟨cmd, buf, hparse, rfl⟩
    obtain ⟨⟨cmd', j⟩, hline, hparse⟩ := bind_eq_ok hparse
    obtain ⟨hj, hcmd, ts, hts, hder⟩ := (parse_sound htext _).1 0 cmd' j (Nat.zero_le _) hline
    change (if (peek text j []).2 ≠ text.length then _ else _) = _ at hparse
    by_cases hend : (peek text j []).2 = text.length
    · rw [if_neg (not_not.2 hend)] at hparse
      obtain ⟨rfl, rfl⟩ := Prod.mk.inj (Except.ok.inj hparse)
      rw [tree_nulterminate htext hcmd]
      rw [(peek_nil htext hj).1 hend, List.append_nil, rest, List.drop_zero] at hts
      rwa [hts]
    · rw [if_pos hend] at hparse
      cases hparse
  · cases e with
    | panic message => exact ⟨message, rfl⟩
    | fuel => exact absurd he (parsecmd_ne_fuel htext)

theorem parsecmd_iff_pipe : Derives .line (tokens ['l', 's', ' ', '|', 'w', 'c', '>', 'f'])
    (.pipe (.exec [['l', 's']])
      (.redir (.exec [['w', 'c']]) ['f'] (O_WRONLY ||| O_CREATE) 1)) := by
  have hrun : (parsecmd ['l', 's', ' ', '|', 'w', 'c', '>', 'f']).toOption.map
      (fun r => r.1.tree r.2 8) = some (.pipe (.exec [['l', 's']])
        (.redir (.exec [['w', 'c']]) ['f'] (O_WRONLY ||| O_CREATE) 1)) := by decide +kernel
  apply ((parsecmd_iff (by decide)).1 _).2
  rcases hparse : parsecmd ['l', 's', ' ', '|', 'w', 'c', '>', 'f'] with e | ⟨cmd, buf⟩
  · rw [hparse] at hrun
    exact nomatch hrun
  · rw [hparse] at hrun
    exact ⟨cmd, buf, rfl, Option.some.inj hrun⟩

end Xv6Container.Shell
