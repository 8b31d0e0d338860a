import Xv6Container.Shell.Grammar
import Mathlib.Data.List.TakeWhile

/-! `peek` and `gettoken` see the tokens of the text that is left. -/

namespace Xv6Container.Shell

variable {text : List Char} {s q eq j : ℕ} {p : Char → Bool}

/-- The tokens from `s` on. -/
def rest (text : List Char) (s : ℕ) : List Token := tokens (text.drop s)

theorem char_of_lt (hs : s < text.length) : char text s = text[s] := by
  rw [char, List.getD_eq_getElem?_getD, List.getElem?_eq_getElem hs, Option.getD_some]

theorem drop_of_lt (hs : s < text.length) : text.drop s = char text s :: text.drop (s + 1) := by
  rw [char_of_lt hs]
  exact List.drop_eq_getElem_cons hs

theorem char_ne_nul (htext : nul ∉ text) (hs : s < text.length) : char text s ≠ nul := by
  rw [char_of_lt hs]
  exact ne_of_mem_of_not_mem (List.getElem_mem hs) htext

theorem char_of_le (hs : text.length ≤ s) : char text s = nul := by
  rw [char, List.getD_eq_getElem?_getD, List.getElem?_eq_none hs, Option.getD_none]

/-- A scan takes the longest piece that passes the test. -/
theorem scan_eq {n : ℕ} (hn : s + n = text.length) :
    scan text p n s = s + ((text.drop s).takeWhile p).length ∧
      text.drop (scan text p n s) = (text.drop s).dropWhile p ∧
      scan text p n s ≤ text.length ∧
      (scan text p n s < text.length → p (char text (scan text p n s)) = false) := by
  induction n generalizing s with
  | zero =>
    rw [scan, List.drop_eq_nil_of_le (by omega)]
    exact ⟨rfl, rfl, by omega, fun h => by omega⟩
  | succ n ih =>
    rw [scan, drop_of_lt (by omega)]
    by_cases hp : p (char text s)
    · rw [if_pos hp, List.takeWhile_cons_of_pos hp, List.dropWhile_cons_of_pos hp, List.length_cons]
      have ih := ih (s := s + 1) (by omega)
      exact ⟨by omega, ih.2⟩
    · rw [if_neg hp, List.takeWhile_cons_of_neg hp, List.dropWhile_cons_of_neg hp,
        drop_of_lt (by omega)]
      exact ⟨rfl, rfl, by omega, fun _ => Bool.eq_false_iff.2 hp⟩

/-! ### White space -/

theorem tokens_white {c : Char} {l : List Char} (hc : c ∈ whitespace) :
    tokens (c :: l) = tokens l := by
  rw [tokens, if_pos hc]

theorem tokens_dropWhile (l : List Char) :
    tokens (l.dropWhile fun c => c ∈ whitespace) = tokens l := by
  induction l with
  | nil => rfl
  | cons c l ih =>
    by_cases hc : c ∈ whitespace
    · rw [List.dropWhile_cons_of_pos (by simpa using hc), ih, tokens_white hc]
    · rw [List.dropWhile_cons_of_neg (by simpa using hc)]

theorem skip_spec (hs : s ≤ text.length) :
    skip text s ≤ text.length ∧ rest text (skip text s) = rest text s ∧
      (skip text s < text.length → char text (skip text s) ∉ whitespace) := by
  obtain ⟨-, hdrop, hle, hchar⟩ :=
    scan_eq (p := fun c => c ∈ whitespace) (Nat.add_sub_of_le hs : s + (text.length - s) = _)
  refine ⟨hle, ?_, fun hlt => of_decide_eq_false (hchar hlt)⟩
  rw [rest, skip, hdrop, tokens_dropWhile, rest]

/-! ### The next token -/

/-- What `gettoken` returns for a token. -/
def Token.code : Token → Char
  | .word _ => 'a'
  | .redir .input => '<'
  | .redir .output => '>'
  | .redir .append => '+'
  | .bar => '|'
  | .lparen => '('
  | .rparen => ')'
  | .semi => ';'
  | .amp => '&'

/-- The character that `peek` sees; no symbol for a word. -/
def Token.lead : Token → Char
  | .redir .append => '>'
  | t => t.code

/-- The pointers are the ends of a word. -/
def Spells (text : List Char) (q eq : ℕ) (w : List Char) : Prop :=
  (text.drop q).takeWhile inWord = w ∧ eq = q + w.length

theorem single_of_mem {c : Char} (hc : c = '|' ∨ c = '(' ∨ c = ')' ∨ c = ';' ∨ c = '&' ∨ c = '<') :
    c ∉ whitespace ∧ c ≠ '>' ∧ ∃ t, single c = some t ∧ t.code = c ∧ t.lead = c ∧
      ∀ w, t ≠ .word w := by
  rcases hc with rfl | rfl | rfl | rfl | rfl | rfl
  all_goals exact ⟨by decide, by decide, _, rfl, rfl, rfl, fun w h => nomatch h⟩

theorem single_of_notMem {c : Char} (hwhite : c ∉ whitespace) (hgt : c ≠ '>')
    (hc : ¬(c = '|' ∨ c = '(' ∨ c = ')' ∨ c = ';' ∨ c = '&' ∨ c = '<')) :
    single c = none ∧ inWord c = true := by
  simp only [not_or] at hc
  obtain ⟨h1, h2, h3, h4, h5, h6⟩ := hc
  constructor
  · rw [single, if_neg h1, if_neg h2, if_neg h3, if_neg h4, if_neg h5, if_neg h6]
  · rw [inWord, decide_eq_true_eq]
    refine ⟨hwhite, ?_⟩
    simp only [symbols, List.mem_cons, List.not_mem_nil, or_false, not_or]
    exact ⟨h6, h1, hgt, h5, h4, h2, h3⟩

theorem head_drop : (text.drop s).head? = some '>' ↔ char text s = '>' := by
  by_cases hs : s < text.length
  · rw [drop_of_lt hs, List.head?_cons, Option.some.injEq]
  · rw [List.drop_eq_nil_of_le (by omega), char_of_le (by omega)]
    decide

/-- If text is left, `gettoken` returns the first token of it. -/
theorem gettoken_of_lt (htext : nul ∉ text) (hs : s ≤ text.length)
    (hlt : skip text s < text.length) :
    ∃ t eq, gettoken text s = (t.code, skip text s, eq, skip text eq) ∧
      rest text s = t :: rest text eq ∧ eq ≤ text.length ∧
      (∀ w, t = .word w → Spells text (skip text s) eq w) ∧
      (char text (skip text s) = t.lead ∨ char text (skip text s) ∉ symbols ∧ t.lead = 'a') := by
  obtain ⟨-, hrest, hwhite⟩ := skip_spec hs
  rw [← hrest, gettoken]
  generalize skip text s = q at hlt hwhite ⊢
  have hwhite := hwhite hlt
  have hnul := char_ne_nul htext hlt
  have htokens : rest text q = tokens (char text q :: text.drop (q + 1)) := by
    rw [rest, drop_of_lt hlt]
  dsimp only
  rw [if_neg hnul, htokens, tokens, if_neg hwhite]
  by_cases hc : char text q = '|' ∨ char text q = '(' ∨ char text q = ')' ∨ char text q = ';' ∨
      char text q = '&' ∨ char text q = '<'
  · obtain ⟨-, hgt, t, ht, hcode, hlead, hword⟩ := single_of_mem hc
    rw [if_pos hc, if_neg hgt, ht]
    refine ⟨t, q + 1, by rw [hcode], rfl, by omega, ?_, .inl hlead.symm⟩
    intro w hw
    exact absurd hw (hword w)
  · rw [if_neg hc]
    by_cases hgt : char text q = '>'
    · rw [if_pos hgt, if_pos hgt]
      by_cases hnext : char text (q + 1) = '>'
      · rw [if_pos hnext, if_pos (head_drop.2 hnext), List.tail_drop]
        refine ⟨.redir .append, q + 2, rfl, rfl, ?_, ?_, .inl hgt⟩
        · by_contra hle
          rw [char_of_le (by omega)] at hnext
          exact absurd hnext (by decide)
        · rintro w ⟨⟩
      · rw [if_neg hnext, if_neg (head_drop.not.2 hnext)]
        refine ⟨.redir .output, q + 1, by rw [hgt]; rfl, rfl, by omega, ?_, .inl hgt⟩
        rintro w ⟨⟩
    · obtain ⟨hsingle, hin⟩ := single_of_notMem hwhite hgt hc
      obtain ⟨hscan, hdrop, hle, -⟩ :=
        scan_eq (p := inWord) (Nat.add_sub_of_le hlt.le : q + (text.length - q) = _)
      rw [if_neg hgt, if_neg hgt, hsingle]
      refine ⟨.word ((text.drop q).takeWhile inWord), scan text inWord (text.length - q) q, rfl, ?_,
        hle, ?_, .inr ⟨?_, rfl⟩⟩
      · rw [rest, hdrop, drop_of_lt hlt, List.takeWhile_cons_of_pos hin,
          List.dropWhile_cons_of_pos hin]
      · rintro w ⟨⟩
        exact ⟨rfl, hscan⟩
      · exact (of_decide_eq_true hin).2

/-- At the end of the text there is no token. -/
theorem gettoken_of_eq (hs : s ≤ text.length) (hend : skip text s = text.length) :
    rest text s = [] ∧ gettoken text s = (nul, text.length, text.length, text.length) := by
  obtain ⟨-, hrest, -⟩ := skip_spec hs
  have hskip : skip text text.length = text.length := by
    rw [skip, Nat.sub_self, scan]
  constructor
  · rw [← hrest, hend, rest, List.drop_length, tokens]
  · rw [gettoken, hend]
    dsimp only
    rw [char_of_le (le_refl _), if_pos rfl, hskip]

theorem gettoken_spec (htext : nul ∉ text) (hs : s ≤ text.length) {tok : Char}
    (h : gettoken text s = (tok, q, eq, j)) : j ≤ text.length ∧
      ((rest text s = [] ∧ rest text j = [] ∧ tok = nul) ∨ ∃ t, rest text s = t :: rest text j ∧ tok = t.code ∧
        ∀ w, t = .word w → Spells text q eq w) := by
  rcases (skip_spec hs).1.lt_or_eq with hlt | hend
  · obtain ⟨t, eq', hget, hrest, hle, hword, -⟩ := gettoken_of_lt htext hs hlt
    obtain ⟨hskip, hrest', -⟩ := skip_spec hle
    rw [hget] at h
    simp only [Prod.mk.injEq] at h
    obtain ⟨rfl, rfl, rfl, rfl⟩ := h
    exact ⟨hskip, .inr ⟨t, by rw [hrest', hrest], rfl, hword⟩⟩
  · obtain ⟨hrest, hget⟩ := gettoken_of_eq hs hend
    rw [hget] at h
    simp only [Prod.mk.injEq] at h
    obtain ⟨rfl, rfl, rfl, rfl⟩ := h
    refine ⟨le_refl _, .inl ⟨hrest, ?_, rfl⟩⟩
    rw [rest, List.drop_length, tokens]

/-- Whether the first token begins with one of some symbols. -/
def leads (toks : List Char) : List Token → Bool
  | [] => false
  | t :: _ => t.lead ∈ toks

theorem peek_spec (htext : nul ∉ text) (hs : s ≤ text.length) {toks : List Char} {b : Bool}
    (htoks : toks ⊆ symbols) (h : peek text s toks = (b, j)) :
    j ≤ text.length ∧ rest text j = rest text s ∧ leads toks (rest text s) = b := by
  obtain ⟨hskip, hrest, -⟩ := skip_spec hs
  rw [peek, Prod.mk.injEq] at h
  obtain ⟨rfl, rfl⟩ := h
  refine ⟨hskip, hrest, ?_⟩
  rcases hskip.lt_or_eq with hlt | hend
  · obtain ⟨t, eq', -, hcons, -, -, hlead⟩ := gettoken_of_lt htext hs hlt
    have hnul := char_ne_nul htext hlt
    rw [hcons, leads, decide_eq_decide]
    rcases hlead with hlead | ⟨hnot, hlead⟩
    · rw [← hlead]
      exact ⟨fun hmem => ⟨hnul, hmem⟩, And.right⟩
    · constructor
      · intro hmem
        rw [hlead] at hmem
        exact absurd (htoks hmem) (by decide)
      · rintro ⟨-, hmem⟩
        exact absurd (htoks hmem) hnot
  · rw [(gettoken_of_eq hs hend).1, hend, char_of_le (le_refl _)]
    rfl

/-- Nothing is left over. -/
theorem peek_nil (htext : nul ∉ text) (hs : s ≤ text.length) :
    (peek text s []).2 = text.length ↔ rest text s = [] := by
  show skip text s = text.length ↔ _
  constructor
  · intro hend
    exact (gettoken_of_eq hs hend).1
  · intro hrest
    rcases (skip_spec hs).1.lt_or_eq with hlt | hend
    · obtain ⟨t, eq, -, hcons, -⟩ := gettoken_of_lt htext hs hlt
      rw [hrest] at hcons
      exact nomatch hcons
    · exact hend

end Xv6Container.Shell
