import Xv6Container.Shell.Sound

/-! What has a derivation is accepted: each parser stops before a token that cannot go on what it
parses. -/

namespace Xv6Container.Shell

variable {text : List Char} {s : ℕ} {u : List Token}

/-- What may stand after a part of the line that is complete. -/
def Sym.followers : Sym → List Token
  | .line => [.rparen]
  | .pipe => [.rparen, .amp, .semi]
  | .exec => [.rparen, .amp, .semi, .bar]

def Follows (x : Sym) (u : List Token) : Prop := ∀ t ∈ u.head?, t ∈ x.followers

theorem Follows.ne {x : Sym} (hu : Follows x u) {t : Token} (ht : t ∉ x.followers)
    (ts : List Token) : u ≠ t :: ts := by
  rintro rfl
  exact ht (hu t rfl)

/-! ### Single tokens -/

theorem peek_next (htext : nul ∉ text) (hs : s ≤ text.length) (toks : List Char)
    (htoks : toks ⊆ symbols) :
    ∃ s₁, peek text s toks = (leads toks (rest text s), s₁) ∧ s₁ ≤ text.length ∧
      rest text s₁ = rest text s := by
  rcases hpeek : peek text s toks with ⟨b, s₁⟩
  obtain ⟨hs₁, hrest, hlead⟩ := peek_spec htext hs htoks hpeek
  exact ⟨s₁, by rw [hlead], hs₁, hrest⟩

theorem gettoken_next (htext : nul ∉ text) (hs : s ≤ text.length) {t : Token} {ts : List Token}
    (hrest : rest text s = t :: ts) :
    ∃ q eq s₁, gettoken text s = (t.code, q, eq, s₁) ∧ s₁ ≤ text.length ∧ rest text s₁ = ts ∧
      ∀ w, t = .word w → Spells text q eq w := by
  rcases htok : gettoken text s with ⟨tok, q, eq, s₁⟩
  obtain ⟨hs₁, htok⟩ := gettoken_spec htext hs htok
  rw [hrest] at htok
  obtain ⟨hnil, -⟩ | ⟨t', hcons, hcode, hspell⟩ := htok
  · exact nomatch hnil
  · obtain ⟨rfl, rfl⟩ := List.cons.inj hcons
    exact ⟨q, eq, s₁, by rw [hcode], hs₁, rfl, hspell⟩

/-- The token is there, and the parser goes past it. -/
theorem single_next (htext : nul ∉ text) (hs : s ≤ text.length) {t : Token} (ht : t.Single)
    {ts : List Token} (hrest : rest text s = t :: ts) :
    ∃ s₁ q eq s₂, peek text s [t.lead] = (true, s₁) ∧ gettoken text s₁ = (t.code, q, eq, s₂) ∧
      s₁ ≤ text.length ∧ rest text s₁ = t :: ts ∧ s₂ ≤ text.length ∧ rest text s₂ = ts := by
  obtain ⟨s₁, hpeek, hs₁, hrest₁⟩ := peek_next htext hs [t.lead] ht.lead_subset
  rw [(leads_single ht).2 ⟨ts, hrest⟩] at hpeek
  rw [hrest] at hrest₁
  obtain ⟨q, eq, s₂, htok, hs₂, hrest₂, -⟩ := gettoken_next htext hs₁ hrest₁
  exact ⟨s₁, q, eq, s₂, hpeek, htok, hs₁, hrest₁, hs₂, hrest₂⟩

/-- Another token is there, or none. -/
theorem single_other (htext : nul ∉ text) (hs : s ≤ text.length) {t : Token} (ht : t.Single)
    (hrest : ∀ ts, rest text s ≠ t :: ts) :
    ∃ s₁, peek text s [t.lead] = (false, s₁) ∧ s₁ ≤ text.length ∧ rest text s₁ = rest text s := by
  obtain ⟨s₁, hpeek, hs₁, hrest₁⟩ := peek_next htext hs [t.lead] ht.lead_subset
  have hlead : leads [t.lead] (rest text s) = false := by
    rw [Bool.eq_false_iff]
    intro hlead
    obtain ⟨ts, hts⟩ := (leads_single ht).1 hlead
    exact hrest ts hts
  exact ⟨s₁, by rw [hpeek, hlead], hs₁, hrest₁⟩

/-! ### Loops -/

theorem parseredirs_complete (htext : nul ∉ text) (cmd : Cmd) {fuel : ℕ} (hs : s ≤ text.length)
    {rs : List (Op × List Char)} (hrest : rest text s = rs.flatMap redirTokens ++ u)
    (hu : ∀ op ts, u ≠ .redir op :: ts) (hfuel : rs.length < fuel) :
    ∃ ret j, parseredirs text fuel cmd s = .ok (ret, j) ∧ j ≤ text.length ∧ rest text j = u ∧
      ret.plain text = rs.foldl Tree.wrap (cmd.plain text) := by
  induction rs generalizing cmd s fuel with
  | nil =>
    obtain ⟨fuel, rfl⟩ := Nat.exists_eq_add_one_of_ne_zero (by omega : fuel ≠ 0)
    obtain ⟨s₁, hpeek, hs₁, hrest₁⟩ := peek_next htext hs ['<', '>'] (by decide)
    have hlead : leads ['<', '>'] (rest text s) = false := by
      rw [Bool.eq_false_iff]
      intro hlead
      obtain ⟨op, ts, hts⟩ := leads_redir.1 hlead
      exact hu op ts (hrest.symm.trans hts)
    rw [hlead] at hpeek
    refine ⟨cmd, s₁, ?_, hs₁, hrest₁.trans hrest, rfl⟩
    rw [parseredirs, hpeek]
    rfl
  | cons r rs ih =>
    obtain ⟨op, w⟩ := r
    obtain ⟨fuel, rfl⟩ := Nat.exists_eq_add_one_of_ne_zero (by omega : fuel ≠ 0)
    have hcons : rest text s = .redir op :: .word w :: (rs.flatMap redirTokens ++ u) := hrest
    obtain ⟨s₁, hpeek, hs₁, hrest₁⟩ := peek_next htext hs ['<', '>'] (by decide)
    rw [leads_redir.2 ⟨op, _, hcons⟩] at hpeek
    obtain ⟨q₀, eq₀, s₂, htok, hs₂, hrest₂, -⟩ := gettoken_next htext hs₁ (hrest₁.trans hcons)
    obtain ⟨q, eq, s₃, hword, hs₃, hrest₃, hspell⟩ := gettoken_next htext hs₂ hrest₂
    have hlength : rs.length < fuel := Nat.lt_of_succ_lt_succ hfuel
    obtain ⟨ret, j, hparse, hj, hrest', hplain⟩ :=
      ih (.redir cmd q eq op.mode op.fd) hs₃ hrest₃ hlength
    refine ⟨ret, j, ?_, hj, hrest', ?_⟩
    · rw [parseredirs, hpeek]
      have hcode : ¬(Token.word w).code ≠ 'a' := not_not.2 rfl
      simp only [htok, hword, if_true]
      rw [if_neg hcode, redir_eq]
      exact hparse
    · rw [hplain, Cmd.plain, wordAt, (hspell w rfl).1]
      rfl

theorem length_redirTokens (rs : List (Op × List Char)) :
    (rs.flatMap redirTokens).length = 2 * rs.length := by
  induction rs with
  | nil => rfl
  | cons r rs ih =>
    rw [List.flatMap_cons, List.length_append, ih, redirTokens, List.length_cons]
    simp only [List.length_cons, List.length_nil]
    omega

/-- A word with the redirections after it. -/
def Item.group (g : List Char × List (Op × List Char)) : List Item := .word g.1 :: g.2.map .redir

theorem exists_groups (items : List Item) :
    ∃ (rs : List (Op × List Char)) (gs : List (List Char × List (Op × List Char))),
      items = rs.map Item.redir ++ gs.flatMap Item.group ∧
      (words items).length = gs.length := by
  induction items with
  | nil => exact ⟨[], [], rfl, rfl⟩
  | cons item items ih =>
    obtain ⟨rs, gs, rfl, hlength⟩ := ih
    cases item with
    | word w => exact ⟨[], (w, rs) :: gs, rfl, congrArg (· + 1) hlength⟩
    | redir r => exact ⟨r :: rs, gs, rfl, hlength⟩

theorem argLoop_complete (htext : nul ∉ text) (cmd : Cmd) {argc fuel : ℕ} (hs : s ≤ text.length)
    {gs : List (List Char × List (Op × List Char))}
    (hrest : rest text s = (gs.flatMap Item.group).flatMap Item.tokens ++ u) (hu : Follows .exec u)
    (hargc : argc + gs.length < MAXARGS) (hfuel : (rest text s).length < fuel) :
    ∃ ret j, argLoop text fuel argc cmd s = .ok (ret, j) ∧ j ≤ text.length ∧ rest text j = u ∧
      ret.plain text = (gs.flatMap Item.group).foldl Tree.add (cmd.plain text) := by
  induction gs generalizing cmd s fuel argc with
  | nil =>
    obtain ⟨fuel, rfl⟩ := Nat.exists_eq_add_one_of_ne_zero (by omega : fuel ≠ 0)
    have hrest : rest text s = u := hrest
    obtain ⟨s₁, hpeek, hs₁, hrest₁⟩ := peek_next htext hs ['|', ')', '&', ';'] (by decide)
    rw [argLoop, hpeek]
    rcases u with _ | ⟨t, ts⟩
    · rw [hrest] at hrest₁ ⊢
      rcases htok : gettoken text s₁ with ⟨tok, q, eq, s₂⟩
      obtain ⟨hs₂, ⟨-, hrest₂, hnul⟩ | ⟨t, hcons, -⟩⟩ := gettoken_spec htext hs₁ htok
      · refine ⟨cmd, s₂, ?_, hs₂, hrest₂, rfl⟩
        simp [leads, htok, hnul]
      · rw [hrest₁] at hcons
        cases hcons
    · have hlead : leads ['|', ')', '&', ';'] (t :: ts) = true := by
        have ht := hu t rfl
        simp only [Sym.followers, List.mem_cons, List.not_mem_nil, or_false] at ht
        rcases ht with rfl | rfl | rfl | rfl
        all_goals rfl
      rw [hrest, hlead]
      exact ⟨cmd, s₁, rfl, hs₁, hrest₁.trans hrest, rfl⟩
  | cons g gs ih =>
    obtain ⟨w, rs⟩ := g
    obtain ⟨fuel, rfl⟩ := Nat.exists_eq_add_one_of_ne_zero (by omega : fuel ≠ 0)
    have hcons : rest text s = .word w :: (rs.flatMap redirTokens ++
        ((gs.flatMap Item.group).flatMap Item.tokens ++ u)) := by
      rw [hrest, List.flatMap_cons, List.flatMap_append, List.append_assoc, Item.group,
        List.flatMap_cons, flatMap_map_redir, List.append_assoc]
      rfl
    obtain ⟨s₁, hpeek, hs₁, hrest₁⟩ := peek_next htext hs ['|', ')', '&', ';'] (by decide)
    have hlead : leads ['|', ')', '&', ';'] (rest text s) = false := by
      rw [hcons]
      rfl
    rw [hlead] at hpeek
    obtain ⟨q, eq, s₂, htok, hs₂, hrest₂, hspell⟩ := gettoken_next htext hs₁ (hrest₁.trans hcons)
    have hnext : ∀ op ts, (gs.flatMap Item.group).flatMap Item.tokens ++ u ≠ .redir op :: ts := by
      intro op ts
      cases gs with
      | nil => exact hu.ne (by simp [Sym.followers]) ts
      | cons g gs => exact fun h => by cases (List.cons.inj h).1
    rw [hcons, List.length_cons, List.length_append, length_redirTokens] at hfuel
    obtain ⟨cmd₁, s₃, hredirs, hs₃, hrest₃, hplain⟩ :=
      parseredirs_complete htext (cmd.addArg q eq) hs₂ hrest₂ hnext (by omega : rs.length < fuel)
    rw [List.length_cons] at hargc
    rw [← hrest₃] at hfuel
    obtain ⟨ret, j, hloop, hj, hrest', hplain'⟩ :=
      ih cmd₁ hs₃ hrest₃ (by omega : argc + 1 + gs.length < MAXARGS)
        (by omega : (rest text s₃).length < fuel)
    refine ⟨ret, j, ?_, hj, hrest', ?_⟩
    · have hcode : ¬(Token.word w).code ≠ 'a' := not_not.2 rfl
      rw [argLoop, hpeek]
      simp only [htok, Bool.false_eq_true, if_false]
      rw [if_neg (code_ne_nul _), if_neg hcode, if_neg (by omega : ¬argc + 1 ≥ MAXARGS), hredirs]
      exact hloop
    · rw [hplain', hplain, plain_addArg, wordAt, (hspell w rfl).1, List.flatMap_cons,
        List.foldl_append, Item.group, List.foldl_cons, foldl_add_map]
      rfl

theorem backLoop_complete (htext : nul ∉ text) (cmd : Cmd) {fuel k : ℕ} (hs : s ≤ text.length)
    (hrest : rest text s = List.replicate k .amp ++ u) (hu : ∀ ts, u ≠ .amp :: ts)
    (hfuel : k < fuel) :
    ∃ ret j, backLoop text fuel cmd s = .ok (ret, j) ∧ j ≤ text.length ∧ rest text j = u ∧
      ret.plain text = Tree.back^[k] (cmd.plain text) := by
  induction k generalizing cmd s fuel with
  | zero =>
    obtain ⟨fuel, rfl⟩ := Nat.exists_eq_add_one_of_ne_zero (by omega : fuel ≠ 0)
    have hrest : rest text s = u := hrest
    obtain ⟨s₁, hpeek, hs₁, hrest₁⟩ :=
      single_other htext hs (by decide : Token.amp.Single) (by rwa [hrest])
    refine ⟨cmd, s₁, ?_, hs₁, hrest₁.trans hrest, rfl⟩
    rw [backLoop]
    simp only [show peek text s ['&'] = (false, s₁) from hpeek, Bool.false_eq_true, if_false]
  | succ k ih =>
    obtain ⟨fuel, rfl⟩ := Nat.exists_eq_add_one_of_ne_zero (by omega : fuel ≠ 0)
    obtain ⟨s₁, q, eq, s₂, hpeek, htok, -, -, hs₂, hrest₂⟩ :=
      single_next htext hs (by decide : Token.amp.Single) hrest
    obtain ⟨ret, j, hloop, hj, hrest', hplain⟩ := ih (.back cmd) hs₂ hrest₂ (by omega : k < fuel)
    refine ⟨ret, j, ?_, hj, hrest', hplain⟩
    rw [backLoop]
    simp only [show peek text s ['&'] = (true, s₁) from hpeek, htok, if_true]
    exact hloop

/-! ### The parsers -/

/-- The function for a part of the line. -/
def parse (text : List Char) : Sym → ℕ → ℕ → Except Stop (Cmd × ℕ)
  | .line => parseline text
  | .pipe => parsepipe text
  | .exec => parseexec text

/-- The calls of the function that consume nothing. -/
def Sym.depth : Sym → ℕ
  | .line => 4
  | .pipe => 3
  | .exec => 2

theorem Follows.to_pipe (hu : Follows .line u) : Follows .pipe u := by
  intro t ht
  have hmem := hu t ht
  simp only [Sym.followers, List.mem_cons, List.not_mem_nil, or_false] at hmem ⊢
  exact .inl hmem

theorem Follows.to_exec (hu : Follows .pipe u) : Follows .exec u := by
  intro t ht
  have hmem := hu t ht
  simp only [Sym.followers, List.mem_cons, List.not_mem_nil, or_false] at hmem ⊢
  exact hmem.imp_right (Or.imp_right .inl)

theorem Follows.amp (hu : Follows .pipe u) (k : ℕ) :
    Follows .pipe (List.replicate k .amp ++ u) := by
  cases k with
  | zero => exact hu
  | succ k =>
    rintro t ⟨⟩
    decide

/-- The parser of `x` takes the tokens `ts` and no more, wherever they stand. -/
def Accepts (text : List Char) (x : Sym) (ts : List Token) (t : Tree) : Prop :=
  ∀ (u : List Token) (s fuel : ℕ), s ≤ text.length → rest text s = ts ++ u → Follows x u →
    4 * (rest text s).length + x.depth ≤ fuel →
      ∃ cmd j, parse text x fuel s = .ok (cmd, j) ∧ j ≤ text.length ∧ rest text j = u ∧
        cmd.plain text = t

namespace Accepts

variable {ts ts' : List Token} {t t' : Tree}

/-- A pipe and the ampersands after it, up to where `parseline` looks for a semicolon. -/
theorem back (htext : nul ∉ text) (h : Accepts text .pipe ts t) (k : ℕ) {fuel : ℕ}
    (hs : s ≤ text.length) (hrest : rest text s = ts ++ (List.replicate k .amp ++ u))
    (hu : Follows .pipe u) (hamp : ∀ ts, u ≠ .amp :: ts)
    (hfuel : 4 * (rest text s).length + 3 ≤ fuel) :
    ∃ cmd₁ s₁ cmd₂ s₂, parsepipe text fuel s = .ok (cmd₁, s₁) ∧
      backLoop text fuel cmd₁ s₁ = .ok (cmd₂, s₂) ∧ s₂ ≤ text.length ∧ rest text s₂ = u ∧
      cmd₂.plain text = Tree.back^[k] t := by
  have hlength := congrArg List.length hrest
  simp only [List.length_append, List.length_replicate] at hlength
  obtain ⟨cmd₁, s₁, hpipe, hs₁, hrest₁, hplain₁⟩ := h _ s fuel hs hrest (hu.amp k) hfuel
  obtain ⟨cmd₂, s₂, hback, hs₂, hrest₂, hplain₂⟩ :=
    backLoop_complete htext cmd₁ hs₁ hrest₁ hamp (by omega : k < fuel)
  exact ⟨cmd₁, s₁, cmd₂, s₂, hpipe, hback, hs₂, hrest₂, by rw [hplain₂, hplain₁]⟩

theorem line (htext : nul ∉ text) (h : Accepts text .pipe ts t) (k : ℕ) :
    Accepts text .line (ts ++ List.replicate k .amp) (Tree.back^[k] t) := by
  intro u s fuel hs hrest hu hfuel
  simp only [Sym.depth] at hfuel
  obtain ⟨fuel, rfl⟩ := Nat.exists_eq_add_one_of_ne_zero (by omega : fuel ≠ 0)
  rw [List.append_assoc] at hrest
  obtain ⟨cmd₁, s₁, cmd₂, s₂, hpipe, hback, hs₂, hrest₂, hplain⟩ :=
    h.back htext k hs hrest hu.to_pipe (hu.ne (by decide)) (by omega : _ ≤ fuel)
  obtain ⟨s₃, hpeek, hs₃, hrest₃⟩ := single_other htext hs₂ (by decide : Token.semi.Single)
    (by rw [hrest₂]; exact hu.ne (by decide))
  refine ⟨cmd₂, s₃, ?_, hs₃, hrest₃.trans hrest₂, hplain⟩
  have hpeek : peek text s₂ [';'] = (false, s₃) := hpeek
  simp only [parse, parseline, bind, Except.bind, hpipe, hback, hpeek, Bool.false_eq_true, if_false]
  rfl

theorem list (htext : nul ∉ text) (h : Accepts text .pipe ts t) (h' : Accepts text .line ts' t')
    (k : ℕ) : Accepts text .line (ts ++ List.replicate k .amp ++ .semi :: ts')
      (.list (Tree.back^[k] t) t') := by
  intro u s fuel hs hrest hu hfuel
  simp only [Sym.depth] at hfuel
  obtain ⟨fuel, rfl⟩ := Nat.exists_eq_add_one_of_ne_zero (by omega : fuel ≠ 0)
  rw [List.append_assoc, List.append_assoc] at hrest
  have hsemi : Follows .pipe (.semi :: ts' ++ u) := by
    rintro t ⟨⟩
    decide
  obtain ⟨cmd₁, s₁, cmd₂, s₂, hpipe, hback, hs₂, hrest₂, hplain⟩ :=
    h.back htext k hs hrest hsemi (fun ts h => nomatch h) (by omega : _ ≤ fuel)
  obtain ⟨s₃, q, eq, s₄, hpeek, htok, -, -, hs₄, hrest₄⟩ :=
    single_next htext hs₂ (by decide : Token.semi.Single) hrest₂
  have hlength := congrArg List.length hrest
  have hlength₄ : (rest text s₄).length = (ts' ++ u).length := congrArg List.length hrest₄
  simp only [List.length_append, List.length_cons] at hlength hlength₄
  obtain ⟨cmd₃, j, hline, hj, hrest', hplain'⟩ :=
    h' u s₄ fuel hs₄ hrest₄ hu (by simp only [Sym.depth]; omega)
  refine ⟨.list cmd₂ cmd₃, j, ?_, hj, hrest', by rw [Cmd.plain, hplain, hplain']⟩
  have hpeek : peek text s₂ [';'] = (true, s₃) := hpeek
  have hline : parseline text fuel s₄ = .ok (cmd₃, j) := hline
  simp only [parse, parseline, bind, Except.bind, hpipe, hback, hpeek, htok, if_true, hline]
  rfl

theorem single (htext : nul ∉ text) (h : Accepts text .exec ts t) : Accepts text .pipe ts t := by
  intro u s fuel hs hrest hu hfuel
  simp only [Sym.depth] at hfuel
  obtain ⟨fuel, rfl⟩ := Nat.exists_eq_add_one_of_ne_zero (by omega : fuel ≠ 0)
  obtain ⟨cmd₁, s₁, hexec, hs₁, hrest₁, hplain⟩ :=
    h u s fuel hs hrest hu.to_exec (by simp only [Sym.depth]; omega)
  obtain ⟨s₂, hpeek, hs₂, hrest₂⟩ := single_other htext hs₁ (by decide : Token.bar.Single)
    (by rw [hrest₁]; exact hu.ne (by decide))
  refine ⟨cmd₁, s₂, ?_, hs₂, hrest₂.trans hrest₁, hplain⟩
  have hpeek : peek text s₁ ['|'] = (false, s₂) := hpeek
  have hexec : parseexec text fuel s = .ok (cmd₁, s₁) := hexec
  simp only [parse, parsepipe, bind, Except.bind, hexec, hpeek, Bool.false_eq_true, if_false]
  rfl

theorem pipe (htext : nul ∉ text) (h : Accepts text .exec ts t) (h' : Accepts text .pipe ts' t') :
    Accepts text .pipe (ts ++ .bar :: ts') (.pipe t t') := by
  intro u s fuel hs hrest hu hfuel
  simp only [Sym.depth] at hfuel
  obtain ⟨fuel, rfl⟩ := Nat.exists_eq_add_one_of_ne_zero (by omega : fuel ≠ 0)
  rw [List.append_assoc] at hrest
  have hbar : Follows .exec (.bar :: ts' ++ u) := by
    rintro t ⟨⟩
    decide
  obtain ⟨cmd₁, s₁, hexec, hs₁, hrest₁, hplain⟩ :=
    h _ s fuel hs hrest hbar (by simp only [Sym.depth]; omega)
  obtain ⟨s₂, q, eq, s₃, hpeek, htok, -, -, hs₃, hrest₃⟩ :=
    single_next htext hs₁ (by decide : Token.bar.Single) hrest₁
  have hlength := congrArg List.length hrest
  have hlength₃ : (rest text s₃).length = (ts' ++ u).length := congrArg List.length hrest₃
  simp only [List.length_append, List.length_cons] at hlength hlength₃
  obtain ⟨cmd₂, j, hpipe, hj, hrest', hplain'⟩ :=
    h' u s₃ fuel hs₃ hrest₃ hu (by simp only [Sym.depth]; omega)
  refine ⟨.pipe cmd₁ cmd₂, j, ?_, hj, hrest', by rw [Cmd.plain, hplain, hplain']⟩
  have hpeek : peek text s₁ ['|'] = (true, s₂) := hpeek
  have hexec : parseexec text fuel s = .ok (cmd₁, s₁) := hexec
  have hpipe : parsepipe text fuel s₃ = .ok (cmd₂, j) := hpipe
  simp only [parse, parsepipe, bind, Except.bind, hexec, hpeek, htok, if_true, hpipe]
  rfl

theorem block (htext : nul ∉ text) (h : Accepts text .line ts t) (rs : List (Op × List Char)) :
    Accepts text .exec (.lparen :: (ts ++ .rparen :: rs.flatMap redirTokens))
      (rs.foldl .wrap t) := by
  intro u s fuel hs hrest hu hfuel
  simp only [Sym.depth] at hfuel
  have hcons : rest text s = .lparen :: (ts ++ .rparen :: (rs.flatMap redirTokens ++ u)) := by
    rw [hrest]
    simp
  have hlength := congrArg List.length hcons
  simp only [List.length_append, List.length_cons, length_redirTokens] at hlength
  obtain ⟨fuel, rfl⟩ : ∃ f, fuel = f + 1 + 1 := ⟨fuel - 2, by omega⟩
  -- `parseexec` looks at the parenthesis, and `parseblock` once more.
  obtain ⟨s₁, -, -, -, hpeek, -, hs₁, hrest₁, -, -⟩ :=
    single_next htext hs (by decide : Token.lparen.Single) hcons
  obtain ⟨s₂, q, eq, s₃, hpeek', htok, -, -, hs₃, hrest₃⟩ :=
    single_next htext hs₁ (by decide : Token.lparen.Single) hrest₁
  have hparen : Follows .line (.rparen :: (rs.flatMap redirTokens ++ u)) := by
    rintro t ⟨⟩
    decide
  have hlength₃ := congrArg List.length hrest₃
  simp only [List.length_append, List.length_cons, length_redirTokens] at hlength₃
  obtain ⟨cmd₁, s₄, hline, hs₄, hrest₄, hplain⟩ :=
    h _ s₃ fuel hs₃ hrest₃ hparen (by simp only [Sym.depth]; omega)
  obtain ⟨s₅, q', eq', s₆, hpeek'', htok', -, -, hs₆, hrest₆⟩ :=
    single_next htext hs₄ (by decide : Token.rparen.Single) hrest₄
  obtain ⟨cmd₂, j, hredirs, hj, hrest', hplain'⟩ :=
    parseredirs_complete htext cmd₁ hs₆ hrest₆ (fun op => hu.ne (by simp [Sym.followers]))
      (by omega : rs.length < fuel)
  refine ⟨cmd₂, j, ?_, hj, hrest', by rw [hplain', hplain]⟩
  have hpeek : peek text s ['('] = (true, s₁) := hpeek
  have hpeek' : peek text s₁ ['('] = (true, s₂) := hpeek'
  have hpeek'' : peek text s₄ [')'] = (true, s₅) := hpeek''
  have hline : parseline text fuel s₃ = .ok (cmd₁, s₄) := hline
  simp only [parse, parseexec, parseblock, bind, Except.bind, hpeek, hpeek', htok, if_true, hline,
    hpeek'', htok', hredirs]

theorem exec (htext : nul ∉ text) (items : List Item) (hmany : (words items).length < MAXARGS) :
    Accepts text .exec (items.flatMap Item.tokens)
      ((redirs items).foldl .wrap (.exec (words items))) := by
  intro u s fuel hs hrest hu hfuel
  simp only [Sym.depth] at hfuel
  obtain ⟨fuel, rfl⟩ := Nat.exists_eq_add_one_of_ne_zero (by omega : fuel ≠ 0)
  obtain ⟨rs, gs, rfl, hlength⟩ := exists_groups items
  have hsplit : rest text s =
      rs.flatMap redirTokens ++ ((gs.flatMap Item.group).flatMap Item.tokens ++ u) := by
    rw [hrest, List.flatMap_append, flatMap_map_redir, List.append_assoc]
  have htail : Follows .exec ((gs.flatMap Item.group).flatMap Item.tokens ++ u) ∨ ∃ w ts,
      (gs.flatMap Item.group).flatMap Item.tokens ++ u = .word w :: ts := by
    cases gs with
    | nil => exact .inl hu
    | cons g gs => exact .inr ⟨g.1, _, rfl⟩
  have hredir : ∀ op ts, (gs.flatMap Item.group).flatMap Item.tokens ++ u ≠ .redir op :: ts := by
    intro op ts
    rcases htail with htail | ⟨w, ts', hword⟩
    · exact htail.ne (by simp [Sym.followers]) ts
    · rw [hword]
      exact fun h => by cases (List.cons.inj h).1
  have hparen : ∀ ts, rest text s ≠ .lparen :: ts := by
    intro ts
    rw [hsplit]
    cases rs with
    | nil =>
      rcases htail with htail | ⟨w, ts', hword⟩
      · exact htail.ne (by simp [Sym.followers]) ts
      · rw [hword]
        exact fun h => by cases (List.cons.inj h).1
    | cons r rs => exact fun h => by cases (List.cons.inj h).1
  have hsum := congrArg List.length hsplit
  rw [List.length_append, length_redirTokens] at hsum
  obtain ⟨s₁, hpeek, hs₁, hrest₁⟩ := single_other htext hs (by decide : Token.lparen.Single) hparen
  obtain ⟨cmd₁, s₂, hredirs, hs₂, hrest₂, hplain₁⟩ :=
    parseredirs_complete htext (.exec []) hs₁ (hrest₁.trans hsplit) hredir
      (by omega : rs.length < fuel)
  have hfuel₂ : (rest text s₂).length < fuel := by
    rw [hrest₂]
    omega
  have hargc : 0 + gs.length < MAXARGS := by
    rw [← hlength, Nat.zero_add]
    exact hmany
  obtain ⟨cmd₂, j, hloop, hj, hrest', hplain₂⟩ :=
    argLoop_complete htext cmd₁ hs₂ hrest₂ hu hargc hfuel₂
  refine ⟨cmd₂, j, ?_, hj, hrest', ?_⟩
  · have hpeek : peek text s ['('] = (false, s₁) := hpeek
    simp only [parse, parseexec, bind, Except.bind, hpeek, Bool.false_eq_true, if_false, hredirs,
      hloop]
  · rw [← foldl_add_exec, List.foldl_append, foldl_add_map, hplain₂, hplain₁]
    rfl

end Accepts

theorem parse_complete (htext : nul ∉ text) {x : Sym} {ts : List Token} {t : Tree}
    (h : Derives x ts t) : Accepts text x ts t := by
  induction h with
  | line k _ ih => exact ih.line htext k
  | list k _ _ ih ih' => exact ih.list htext ih' k
  | single _ ih => exact ih.single htext
  | pipe _ _ ih ih' => exact ih.pipe htext ih'
  | block rs _ ih => exact ih.block htext rs
  | exec items hmany => exact .exec htext items hmany

end Xv6Container.Shell
