import Xv6Container.Shell.Tokens

/-! What the parser accepts has a derivation, and the tree is the one of the derivation. -/

namespace Xv6Container.Shell

variable {text : List Char} {s q eq j : ℕ} {cmd : Cmd}

/-! ### Trees with pointers -/

/-- The word that begins at a pointer. -/
def wordAt (text : List Char) (q : ℕ) : List Char := (text.drop q).takeWhile inWord

/-- The tree with the words themselves. -/
def Cmd.plain (text : List Char) : Cmd → Tree
  | .exec argv => .exec (argv.map fun arg => wordAt text arg.1)
  | .redir cmd file _ mode fd => .redir (cmd.plain text) (wordAt text file) mode fd
  | .pipe left right => .pipe (left.plain text) (right.plain text)
  | .list left right => .list (left.plain text) (right.plain text)
  | .back cmd => .back (cmd.plain text)

/-- All the words of a tree, by their ends. -/
def Cmd.ends : Cmd → List (ℕ × ℕ)
  | .exec argv => argv
  | .redir cmd file efile _ _ => (file, efile) :: cmd.ends
  | .pipe left right => left.ends ++ right.ends
  | .list left right => left.ends ++ right.ends
  | .back cmd => cmd.ends

/-- All the pointers are ends of words. -/
def Cmd.Spelled (text : List Char) (cmd : Cmd) : Prop :=
  ∀ a ∈ cmd.ends, Spells text a.1 a.2 (wordAt text a.1)

def Tree.addWord (w : List Char) : Tree → Tree
  | .exec argv => .exec (argv ++ [w])
  | .redir cmd file mode fd => .redir (cmd.addWord w) file mode fd
  | t => t

theorem plain_addArg (cmd : Cmd) (q eq : ℕ) :
    (cmd.addArg q eq).plain text = (cmd.plain text).addWord (wordAt text q) := by
  induction cmd with
  | exec argv => simp [Cmd.addArg, Cmd.plain, Tree.addWord]
  | redir cmd file efile mode fd ih => simp [Cmd.addArg, Cmd.plain, Tree.addWord, ih]
  | pipe left right => rfl
  | list left right => rfl
  | back cmd => rfl

theorem spelled_addArg (h : cmd.Spelled text) (hq : Spells text q eq (wordAt text q)) :
    (cmd.addArg q eq).Spelled text := by
  induction cmd with
  | exec argv =>
    intro a ha
    rcases List.mem_append.1 ha with ha | ha
    · exact h a ha
    · rw [List.mem_singleton.1 ha]
      exact hq
  | redir cmd file efile mode fd ih =>
    intro a ha
    rcases List.mem_cons.1 ha with rfl | ha
    · exact h _ List.mem_cons_self
    · exact ih (fun b hb => h b (List.mem_cons_of_mem _ hb)) a ha
  | pipe left right => exact h
  | list left right => exact h
  | back cmd => exact h

/-! ### Words and redirections in order -/

def Tree.add (t : Tree) : Item → Tree
  | .word w => t.addWord w
  | .redir r => t.wrap r

theorem addWord_foldl (rs : List (Op × List Char)) (t : Tree) (w : List Char) :
    (rs.foldl Tree.wrap t).addWord w = rs.foldl Tree.wrap (t.addWord w) := by
  induction rs generalizing t with
  | nil => rfl
  | cons r rs ih => exact ih (t.wrap r)

theorem foldl_add (items : List Item) (rs : List (Op × List Char)) (ws : List (List Char)) :
    items.foldl Tree.add (rs.foldl Tree.wrap (.exec ws)) =
      (rs ++ redirs items).foldl Tree.wrap (.exec (ws ++ words items)) := by
  induction items generalizing rs ws with
  | nil => simp [redirs, words]
  | cons item items ih =>
    cases item with
    | word w =>
      rw [List.foldl_cons, Tree.add, addWord_foldl, Tree.addWord, ih]
      simp [redirs, words]
    | redir r =>
      have hwrap : (rs.foldl Tree.wrap (.exec ws)).wrap r = (rs ++ [r]).foldl Tree.wrap (.exec ws) := by
        rw [List.foldl_append, List.foldl_cons, List.foldl_nil]
      rw [List.foldl_cons, Tree.add, hwrap, ih]
      simp [redirs, words]

/-- Redirections among the words go around the command all the same. -/
theorem foldl_add_exec (items : List Item) :
    items.foldl Tree.add (.exec []) = (redirs items).foldl Tree.wrap (.exec (words items)) :=
  foldl_add items [] []

theorem foldl_add_map (rs : List (Op × List Char)) (t : Tree) :
    (rs.map Item.redir).foldl Tree.add t = rs.foldl Tree.wrap t := by
  rw [List.foldl_map]
  rfl

theorem words_append (items : List Item) (rs : List (Op × List Char)) :
    words (rs.map Item.redir ++ items) = words items := by
  induction rs with
  | nil => rfl
  | cons r rs ih => exact ih

theorem flatMap_map_redir (rs : List (Op × List Char)) :
    (rs.map Item.redir).flatMap Item.tokens = rs.flatMap redirTokens := by
  rw [List.flatMap_map]
  rfl

/-! ### Single tokens -/

theorem leads_redir {ts : List Token} :
    leads ['<', '>'] ts = true ↔ ∃ op ts', ts = .redir op :: ts' := by
  rcases ts with _ | ⟨t, ts⟩
  · simp [leads]
  · rcases t with w | op | _ | _ | _ | _ | _
    case redir => cases op <;> simp [leads, Token.lead, Token.code]
    all_goals simp [leads, Token.lead, Token.code]

/-- The tokens that `peek` tells from all others. -/
def Token.Single (t : Token) : Prop := t ∈ [.bar, .lparen, .rparen, .semi, .amp]

instance : DecidablePred Token.Single := fun _ => inferInstanceAs (Decidable (_ ∈ _))

theorem leads_single {t : Token} (ht : t.Single) {ts : List Token} :
    leads [t.lead] ts = true ↔ ∃ ts', ts = t :: ts' := by
  rcases ts with _ | ⟨u, ts⟩
  · simp [leads]
  simp only [Token.Single, List.mem_cons, List.not_mem_nil, or_false] at ht
  rcases u with w | op | _ | _ | _ | _ | _
  case redir =>
    cases op <;> rcases ht with rfl | rfl | rfl | rfl | rfl <;> simp [leads, Token.lead, Token.code]
  all_goals rcases ht with rfl | rfl | rfl | rfl | rfl <;> simp [leads, Token.lead, Token.code]

theorem Token.Single.lead_subset {t : Token} (ht : t.Single) : [t.lead] ⊆ symbols := by
  simp only [Token.Single, List.mem_cons, List.not_mem_nil, or_false] at ht
  rcases ht with rfl | rfl | rfl | rfl | rfl
  all_goals decide

/-- `peek` has seen the token, and `gettoken` goes past it. -/
theorem next_single (htext : nul ∉ text) (hs : s ≤ text.length) {t : Token} (ht : t.Single)
    {s₁ s₂ : ℕ} {tok : Char} (hpeek : peek text s [t.lead] = (true, s₁))
    (htok : gettoken text s₁ = (tok, q, eq, s₂)) :
    s₂ ≤ text.length ∧ rest text s = t :: rest text s₂ := by
  obtain ⟨hs₁, hrest₁, hlead⟩ := peek_spec htext hs ht.lead_subset hpeek
  obtain ⟨ts, hts⟩ := (leads_single ht).1 hlead
  obtain ⟨hs₂, htok⟩ := gettoken_spec htext hs₁ htok
  rw [hrest₁, hts] at htok
  refine ⟨hs₂, ?_⟩
  obtain ⟨hnil, -⟩ | ⟨t', hcons, -⟩ := htok
  · exact nomatch hnil
  · obtain ⟨rfl, rfl⟩ := List.cons.inj hcons
    exact hts

/-- The code of a token says which it is. -/
theorem code_eq_a {t : Token} : t.code = 'a' ↔ ∃ w, t = .word w := by
  rcases t with w | op | _ | _ | _ | _ | _
  case redir => cases op <;> simp [Token.code]
  all_goals simp [Token.code]

theorem code_ne_nul (t : Token) : t.code ≠ nul := by
  rcases t with w | op | _ | _ | _ | _ | _
  case redir => cases op <;> decide
  all_goals simp only [Token.code]; decide

/-- The node for a redirection, as its operator says. -/
theorem redir_eq (op : Op) (cmd : Cmd) (q eq : ℕ) :
    (if (Token.redir op).code = '<' then Cmd.redir cmd q eq O_RDONLY 0
      else if (Token.redir op).code = '>' then .redir cmd q eq (O_WRONLY ||| O_CREATE) 1
      else if (Token.redir op).code = '+' then .redir cmd q eq (O_WRONLY ||| O_CREATE) 1
      else cmd) = .redir cmd q eq op.mode op.fd := by
  cases op <;> rfl

/-! ### Loops -/

theorem bind_eq_ok {α β : Type} {x : Except Stop α} {f : α → Except Stop β} {b : β}
    (h : (x >>= f) = .ok b) : ∃ a, x = .ok a ∧ f a = .ok b := by
  cases x with
  | error e => exact nomatch h
  | ok a => exact ⟨a, rfl, h⟩

/-- A redirection is parsed as its operator says. -/
theorem parseredirs_sound (htext : nul ∉ text) {fuel : ℕ} {ret : Cmd} (hs : s ≤ text.length)
    (hcmd : cmd.Spelled text) (h : parseredirs text fuel cmd s = .ok (ret, j)) :
    j ≤ text.length ∧ ret.Spelled text ∧ ∃ rs : List (Op × List Char),
      rest text s = rs.flatMap redirTokens ++ rest text j ∧
      ret.plain text = rs.foldl Tree.wrap (cmd.plain text) := by
  induction fuel generalizing cmd s with
  | zero => exact nomatch h
  | succ fuel ih =>
    rw [parseredirs] at h
    rcases hpeek : peek text s ['<', '>'] with ⟨more, s₁⟩
    obtain ⟨hs₁, hrest₁, hlead⟩ := peek_spec htext hs (by decide) hpeek
    rw [hpeek] at h
    cases more with
    | false =>
      simp only [Bool.false_eq_true, if_false, Except.ok.injEq, Prod.mk.injEq] at h
      obtain ⟨rfl, rfl⟩ := h
      exact ⟨hs₁, hcmd, [], hrest₁.symm, rfl⟩
    | true =>
      obtain ⟨op, ts, hop⟩ := leads_redir.1 hlead
      rcases htok : gettoken text s₁ with ⟨tok, q₀, eq₀, s₂⟩
      obtain ⟨hs₂, htok'⟩ := gettoken_spec htext hs₁ htok
      rcases hword : gettoken text s₂ with ⟨w, q, eq, s₃⟩
      obtain ⟨hs₃, hword'⟩ := gettoken_spec htext hs₂ hword
      simp only [htok, hword, if_true] at h
      by_cases hw : w = 'a'
      · rw [if_neg (not_not.2 hw)] at h
        rw [hrest₁, hop] at htok'
        obtain ⟨hnil, -⟩ | ⟨t, hcons, rfl, -⟩ := htok'
        · exact nomatch hnil
        obtain ⟨rfl, rfl⟩ := List.cons.inj hcons
        obtain ⟨-, -, hnul⟩ | ⟨t, hcons', hcode, hspell⟩ := hword'
        · rw [hw] at hnul
          exact absurd hnul (by decide)
        obtain ⟨wd, rfl⟩ := code_eq_a.1 (hcode.symm.trans hw)
        have hspell := hspell wd rfl
        rw [redir_eq] at h
        have hcmd' : (Cmd.redir cmd q eq op.mode op.fd).Spelled text := by
          intro a ha
          rcases List.mem_cons.1 ha with rfl | ha
          · exact ⟨rfl, by rw [wordAt, hspell.1]; exact hspell.2⟩
          · exact hcmd a ha
        obtain ⟨hj, hret, rs, hrs, hplain⟩ := ih hs₃ hcmd' h
        refine ⟨hj, hret, (op, wd) :: rs, ?_, ?_⟩
        · rw [hop, hcons', hrs]
          rfl
        · rw [hplain, Cmd.plain, wordAt, hspell.1]
          rfl
      · rw [if_pos hw] at h
        exact nomatch h

theorem argLoop_sound (htext : nul ∉ text) {fuel argc : ℕ} {ret : Cmd} (hs : s ≤ text.length)
    (hcmd : cmd.Spelled text) (hargc : argc < MAXARGS)
    (h : argLoop text fuel argc cmd s = .ok (ret, j)) :
    j ≤ text.length ∧ ret.Spelled text ∧ ∃ items : List Item,
      rest text s = items.flatMap Item.tokens ++ rest text j ∧
      ret.plain text = items.foldl Tree.add (cmd.plain text) ∧
      argc + (words items).length < MAXARGS := by
  induction fuel generalizing argc cmd s with
  | zero => exact nomatch h
  | succ fuel ih =>
    rw [argLoop] at h
    rcases hpeek : peek text s ['|', ')', '&', ';'] with ⟨stop, s₁⟩
    obtain ⟨hs₁, hrest₁, -⟩ := peek_spec htext hs (by decide) hpeek
    rw [hpeek] at h
    cases stop with
    | true =>
      simp only [if_true, Except.ok.injEq, Prod.mk.injEq] at h
      obtain ⟨rfl, rfl⟩ := h
      exact ⟨hs₁, hcmd, [], hrest₁.symm, rfl, hargc⟩
    | false =>
      rcases htok : gettoken text s₁ with ⟨tok, q, eq, s₂⟩
      obtain ⟨hs₂, htok'⟩ := gettoken_spec htext hs₁ htok
      simp only [htok, Bool.false_eq_true, if_false] at h
      rw [hrest₁] at htok'
      obtain ⟨hnil, hnil', htok'⟩ | ⟨t, hcons, hcode, hspell⟩ := htok'
      · rw [if_pos htok', Except.ok.injEq, Prod.mk.injEq] at h
        obtain ⟨rfl, rfl⟩ := h
        refine ⟨hs₂, hcmd, [], ?_, rfl, hargc⟩
        rw [hnil, hnil']
        rfl
      · rw [if_neg (hcode ▸ code_ne_nul t)] at h
        by_cases hw : tok = 'a'
        · rw [if_neg (not_not.2 hw)] at h
          obtain ⟨wd, rfl⟩ := code_eq_a.1 (hcode.symm.trans hw)
          have hspell := hspell wd rfl
          by_cases hmany : argc + 1 ≥ MAXARGS
          · rw [if_pos hmany] at h
            exact nomatch h
          rw [if_neg hmany] at h
          obtain ⟨⟨cmd₁, s₃⟩, hredirs, h⟩ := bind_eq_ok h
          have hq : Spells text q eq (wordAt text q) := ⟨rfl, by rw [wordAt, hspell.1]; exact hspell.2⟩
          obtain ⟨hs₃, hcmd₁, rs, hrs, hplain⟩ :=
            parseredirs_sound htext hs₂ (spelled_addArg hcmd hq) hredirs
          obtain ⟨hj, hret, items, hitems, hplain', hargc'⟩ := ih hs₃ hcmd₁ (Nat.not_le.1 hmany) h
          refine ⟨hj, hret, .word wd :: (rs.map .redir ++ items), ?_, ?_, ?_⟩
          · rw [hcons, hrs, hitems, List.flatMap_cons, List.flatMap_append, flatMap_map_redir,
              List.append_assoc, List.append_assoc]
            rfl
          · rw [hplain', hplain, plain_addArg, List.foldl_cons, List.foldl_append, foldl_add_map,
              wordAt, hspell.1]
            rfl
          · have hwords : words (.word wd :: (rs.map .redir ++ items)) = wd :: words items :=
              congrArg (wd :: ·) (words_append items rs)
            rw [hwords, List.length_cons]
            omega
        · rw [if_pos hw] at h
          exact nomatch h

theorem backLoop_sound (htext : nul ∉ text) {fuel : ℕ} {ret : Cmd} (hs : s ≤ text.length)
    (hcmd : cmd.Spelled text) (h : backLoop text fuel cmd s = .ok (ret, j)) :
    j ≤ text.length ∧ ret.Spelled text ∧ ∃ k : ℕ,
      rest text s = List.replicate k .amp ++ rest text j ∧
      ret.plain text = Tree.back^[k] (cmd.plain text) := by
  induction fuel generalizing cmd s with
  | zero => exact nomatch h
  | succ fuel ih =>
    rw [backLoop] at h
    rcases hpeek : peek text s ['&'] with ⟨more, s₁⟩
    rw [hpeek] at h
    cases more with
    | false =>
      obtain ⟨hs₁, hrest₁, -⟩ := peek_spec htext hs (by decide) hpeek
      simp only [Bool.false_eq_true, if_false, Except.ok.injEq, Prod.mk.injEq] at h
      obtain ⟨rfl, rfl⟩ := h
      exact ⟨hs₁, hcmd, 0, hrest₁.symm, rfl⟩
    | true =>
      rcases htok : gettoken text s₁ with ⟨tok, q, eq, s₂⟩
      obtain ⟨hs₂, hrest⟩ := next_single htext hs (by decide : Token.amp.Single) hpeek htok
      simp only [htok, if_true] at h
      have hback : (Cmd.back cmd).Spelled text := hcmd
      obtain ⟨hj, hret, k, hk, hplain⟩ := ih hs₂ hback h
      exact ⟨hj, hret, k + 1, by rw [hrest, hk]; rfl, hplain⟩

/-! ### The parsers -/

/-- What a parser says about the text from `s` to `j`. -/
def Parsed (text : List Char) (x : Sym) (s : ℕ) (cmd : Cmd) (j : ℕ) : Prop :=
  j ≤ text.length ∧ cmd.Spelled text ∧
    ∃ ts, rest text s = ts ++ rest text j ∧ Derives x ts (cmd.plain text)

theorem spelled_pair {left right : Cmd} (hl : left.Spelled text) (hr : right.Spelled text) :
    ∀ a ∈ left.ends ++ right.ends, Spells text a.1 a.2 (wordAt text a.1) := by
  intro a ha
  exact (List.mem_append.1 ha).elim (hl a) (hr a)

theorem parse_sound (htext : nul ∉ text) (fuel : ℕ) :
    (∀ s cmd j, s ≤ text.length → parseline text fuel s = .ok (cmd, j) →
      Parsed text .line s cmd j) ∧
    (∀ s cmd j, s ≤ text.length → parsepipe text fuel s = .ok (cmd, j) →
      Parsed text .pipe s cmd j) ∧
    (∀ s cmd j, s ≤ text.length → parseblock text fuel s = .ok (cmd, j) →
      Parsed text .exec s cmd j) ∧
    ∀ s cmd j, s ≤ text.length → parseexec text fuel s = .ok (cmd, j) →
      Parsed text .exec s cmd j := by
  induction fuel with
  | zero =>
    refine ⟨?_, ?_, ?_, ?_⟩
    all_goals
      intro s cmd j _ h
      simp [parseline, parsepipe, parseblock, parseexec] at h
  | succ fuel ih =>
    obtain ⟨ihline, ihpipe, ihblock, ihexec⟩ := ih
    refine ⟨fun s cmd j hs h => ?_, fun s cmd j hs h => ?_, fun s cmd j hs h => ?_,
      fun s cmd j hs h => ?_⟩
    · rw [parseline] at h
      obtain ⟨⟨cmd₁, s₁⟩, hpipe, h⟩ := bind_eq_ok h
      obtain ⟨⟨cmd₂, s₂⟩, hback, h⟩ := bind_eq_ok h
      obtain ⟨hs₁, hcmd₁, ts, hts, hder⟩ := ihpipe s cmd₁ s₁ hs hpipe
      obtain ⟨hs₂, hcmd₂, k, hk, hplain⟩ := backLoop_sound htext hs₁ hcmd₁ hback
      rcases hpeek : peek text s₂ [';'] with ⟨more, s₃⟩
      simp only [hpeek] at h
      cases more with
      | false =>
        obtain ⟨hs₃, hrest₃, -⟩ := peek_spec htext hs₂ (by decide) hpeek
        simp only [Bool.false_eq_true, if_false, pure, Except.pure, Except.ok.injEq,
          Prod.mk.injEq] at h
        obtain ⟨rfl, rfl⟩ := h
        refine ⟨hs₃, hcmd₂, ts ++ List.replicate k .amp, ?_, ?_⟩
        · rw [hts, hk, hrest₃, List.append_assoc]
        · rw [hplain]
          exact .line k hder
      | true =>
        rcases htok : gettoken text s₃ with ⟨tok, q, eq, s₄⟩
        obtain ⟨hs₄, hrest⟩ := next_single htext hs₂ (by decide : Token.semi.Single) hpeek htok
        simp only [htok, if_true] at h
        obtain ⟨⟨cmd₃, s₅⟩, hline, h⟩ := bind_eq_ok h
        simp only [pure, Except.pure, Except.ok.injEq, Prod.mk.injEq] at h
        obtain ⟨rfl, rfl⟩ := h
        obtain ⟨hs₅, hcmd₃, ts', hts', hder'⟩ := ihline s₄ cmd₃ s₅ hs₄ hline
        refine ⟨hs₅, spelled_pair hcmd₂ hcmd₃, ts ++ List.replicate k .amp ++ .semi :: ts', ?_, ?_⟩
        · rw [hts, hk, hrest, hts']
          simp
        · rw [Cmd.plain, hplain]
          exact .list k hder hder'
    · rw [parsepipe] at h
      obtain ⟨⟨cmd₁, s₁⟩, hexec, h⟩ := bind_eq_ok h
      obtain ⟨hs₁, hcmd₁, ts, hts, hder⟩ := ihexec s cmd₁ s₁ hs hexec
      rcases hpeek : peek text s₁ ['|'] with ⟨more, s₂⟩
      simp only [hpeek] at h
      cases more with
      | false =>
        obtain ⟨hs₂, hrest₂, -⟩ := peek_spec htext hs₁ (by decide) hpeek
        simp only [Bool.false_eq_true, if_false, pure, Except.pure, Except.ok.injEq,
          Prod.mk.injEq] at h
        obtain ⟨rfl, rfl⟩ := h
        exact ⟨hs₂, hcmd₁, ts, by rw [hts, hrest₂], .single hder⟩
      | true =>
        rcases htok : gettoken text s₂ with ⟨tok, q, eq, s₃⟩
        obtain ⟨hs₃, hrest⟩ := next_single htext hs₁ (by decide : Token.bar.Single) hpeek htok
        simp only [htok, if_true] at h
        obtain ⟨⟨cmd₂, s₄⟩, hpipe, h⟩ := bind_eq_ok h
        simp only [pure, Except.pure, Except.ok.injEq, Prod.mk.injEq] at h
        obtain ⟨rfl, rfl⟩ := h
        obtain ⟨hs₄, hcmd₂, ts', hts', hder'⟩ := ihpipe s₃ cmd₂ s₄ hs₃ hpipe
        refine ⟨hs₄, spelled_pair hcmd₁ hcmd₂, ts ++ .bar :: ts', ?_, .pipe hder hder'⟩
        rw [hts, hrest, hts', List.append_assoc, List.cons_append]
    · rw [parseblock] at h
      rcases hpeek : peek text s ['('] with ⟨more, s₁⟩
      simp only [hpeek] at h
      cases more with
      | false =>
        simp at h
      | true =>
        rcases htok : gettoken text s₁ with ⟨tok, q, eq, s₂⟩
        obtain ⟨hs₂, hrest⟩ := next_single htext hs (by decide : Token.lparen.Single) hpeek htok
        simp only [htok, if_true] at h
        obtain ⟨⟨cmd₁, s₃⟩, hline, h⟩ := bind_eq_ok h
        obtain ⟨hs₃, hcmd₁, ts, hts, hder⟩ := ihline s₂ cmd₁ s₃ hs₂ hline
        rcases hpeek' : peek text s₃ [')'] with ⟨more', s₄⟩
        simp only [hpeek'] at h
        cases more' with
        | false =>
          simp at h
        | true =>
          rcases htok' : gettoken text s₄ with ⟨tok', q', eq', s₅⟩
          obtain ⟨hs₅, hrest'⟩ :=
            next_single htext hs₃ (by decide : Token.rparen.Single) hpeek' htok'
          simp only [htok', if_true] at h
          obtain ⟨hj, hcmd, rs, hrs, hplain⟩ := parseredirs_sound htext hs₅ hcmd₁ h
          refine ⟨hj, hcmd, .lparen :: (ts ++ .rparen :: rs.flatMap redirTokens), ?_, ?_⟩
          · rw [hrest, hts, hrest', hrs]
            simp
          · rw [hplain]
            exact .block rs hder
    · rw [parseexec] at h
      rcases hpeek : peek text s ['('] with ⟨block, s₁⟩
      obtain ⟨hs₁, hrest₁, -⟩ := peek_spec htext hs (by decide) hpeek
      simp only [hpeek] at h
      cases block with
      | true =>
        obtain ⟨hj, hcmd, ts, hts, hder⟩ := ihblock s₁ cmd j hs₁ h
        exact ⟨hj, hcmd, ts, by rw [← hrest₁, hts], hder⟩
      | false =>
        obtain ⟨⟨ret, s₂⟩, hredirs, h⟩ := bind_eq_ok h
        have hempty : (Cmd.exec []).Spelled text := fun a ha => by cases ha
        obtain ⟨hs₂, hret, rs, hrs, hplain⟩ := parseredirs_sound htext hs₁ hempty hredirs
        obtain ⟨hj, hcmd, items, hitems, hplain', hargc⟩ :=
          argLoop_sound htext hs₂ hret (by decide) h
        refine ⟨hj, hcmd, (rs.map Item.redir ++ items).flatMap Item.tokens, ?_, ?_⟩
        · rw [← hrest₁, hrs, hitems, List.flatMap_append, flatMap_map_redir, List.append_assoc]
        · have htree : cmd.plain text =
              (rs.map Item.redir ++ items).foldl Tree.add (.exec []) := by
            rw [hplain', hplain, List.foldl_append, foldl_add_map]
            rfl
          rw [htree, foldl_add_exec]
          apply Derives.exec
          rw [words_append]
          omega

end Xv6Container.Shell
