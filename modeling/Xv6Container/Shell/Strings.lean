import Xv6Container.Shell.Sound

/-! After `nulterminate` every pointer leads to its word as a C string. -/

namespace Xv6Container.Shell

open Function

variable {text : List Char} {buf : ℕ → Char} {n q eq : ℕ} {w : List Char}

/-- The C string at `q`, of `n` characters at most. -/
def cstr (buf : ℕ → Char) : ℕ → ℕ → List Char
  | 0, _ => []
  | n + 1, q => if buf q = nul then [] else buf q :: cstr buf n (q + 1)

/-- The tree with the strings that its pointers lead to. -/
def Cmd.tree (buf : ℕ → Char) (n : ℕ) : Cmd → Tree
  | .exec argv => .exec (argv.map fun arg => cstr buf n arg.1)
  | .redir cmd file _ mode fd => .redir (cmd.tree buf n) (cstr buf n file) mode fd
  | .pipe left right => .pipe (left.tree buf n) (right.tree buf n)
  | .list left right => .list (left.tree buf n) (right.tree buf n)
  | .back cmd => .back (cmd.tree buf n)

theorem cstr_eq (hw : ∀ k (hk : k < w.length), buf (q + k) = w[k]) (hnul : nul ∉ w)
    (hend : buf (q + w.length) = nul) (hn : w.length ≤ n) : cstr buf n q = w := by
  induction w generalizing n q with
  | nil =>
    cases n with
    | zero => rfl
    | succ n =>
      have hend : buf q = nul := hend
      rw [cstr, if_pos hend]
  | cons c w ih =>
    obtain ⟨n, rfl⟩ := Nat.exists_eq_add_one_of_ne_zero (by simp at hn; omega : n ≠ 0)
    have hc : buf q = c := hw 0 (by simp)
    rw [List.mem_cons, not_or] at hnul
    rw [cstr, hc, if_neg (Ne.symm hnul.1), ih _ hnul.2 _ (Nat.le_of_succ_le_succ hn)]
    · intro k hk
      rw [Nat.add_assoc, Nat.add_comm 1]
      exact hw (k + 1) (by simpa using hk)
    · rw [List.length_cons] at hend
      rwa [Nat.add_assoc, Nat.add_comm 1]

/-- What `nulterminate` writes, and where. -/
theorem nulterminate_apply (cmd : Cmd) (i : ℕ) :
    nulterminate cmd buf i = if i ∈ cmd.ends.map Prod.snd then nul else buf i := by
  induction cmd generalizing buf with
  | exec argv =>
    rw [nulterminate, Cmd.ends]
    induction argv generalizing buf with
    | nil => rfl
    | cons arg argv ih =>
      rw [List.foldl_cons, ih, List.map_cons]
      by_cases hi : i = arg.2
      · simp [hi]
      · simp only [List.mem_cons, hi, false_or, update_of_ne hi]
  | redir cmd file efile mode fd ih =>
    rw [nulterminate, Cmd.ends, List.map_cons]
    by_cases hi : i = efile
    · simp [hi]
    · simp only [List.mem_cons, hi, false_or, update_of_ne hi, ih]
  | pipe left right ihl ihr =>
    rw [nulterminate, ihr, ihl, Cmd.ends, List.map_append]
    by_cases hr : i ∈ right.ends.map Prod.snd
    · rw [if_pos hr, if_pos (List.mem_append_right _ hr)]
    · rw [if_neg hr]
      simp only [List.mem_append, hr, or_false]
  | list left right ihl ihr =>
    rw [nulterminate, ihr, ihl, Cmd.ends, List.map_append]
    by_cases hr : i ∈ right.ends.map Prod.snd
    · rw [if_pos hr, if_pos (List.mem_append_right _ hr)]
    · rw [if_neg hr]
      simp only [List.mem_append, hr, or_false]
  | back cmd ih => exact ih

/-! ### Words in the text -/

theorem Spells.getElem (h : Spells text q eq w) {k : ℕ} (hk : k < w.length) :
    q + k < text.length ∧ char text (q + k) = w[k] ∧ inWord w[k] = true := by
  obtain ⟨rfl, -⟩ := h
  have hprefix := List.takeWhile_prefix inWord (l := text.drop q)
  have hlength := hprefix.length_le
  rw [List.length_drop] at hlength
  have hlt : q + k < text.length := by omega
  refine ⟨hlt, ?_, List.mem_takeWhile_imp (List.getElem_mem hk)⟩
  rw [char_of_lt hlt, hprefix.getElem hk, List.getElem_drop]

/-- A word ends where no word goes on. -/
theorem Spells.inWord_eq (h : Spells text q eq w) (heq : eq < text.length) :
    inWord (char text eq) = false := by
  obtain ⟨rfl, rfl⟩ := h
  obtain ⟨hscan, -, -, hchar⟩ :=
    scan_eq (p := inWord) (Nat.add_sub_of_le (by omega) : q + (text.length - q) = text.length)
  rw [hscan] at hchar
  exact hchar heq

/-- No NUL is written into a word. -/
theorem tree_nulterminate (htext : nul ∉ text) {cmd : Cmd} (hcmd : cmd.Spelled text) :
    cmd.tree (nulterminate cmd (char text)) text.length = cmd.plain text := by
  have hword : ∀ a ∈ cmd.ends, cstr (nulterminate cmd (char text)) text.length a.1 =
      wordAt text a.1 := by
    intro a ha
    have hspell := hcmd a ha
    have hlength := (List.takeWhile_sublist inWord (l := text.drop a.1)).length_le
    rw [List.length_drop] at hlength
    apply cstr_eq
    · intro k hk
      obtain ⟨hlt, hchar, hin⟩ := hspell.getElem hk
      rw [nulterminate_apply, if_neg, hchar]
      intro hmem
      obtain ⟨b, hb, hbk⟩ := List.mem_map.1 hmem
      have hout := (hcmd b hb).inWord_eq (hbk ▸ hlt)
      rw [hbk, hchar, hin] at hout
      exact nomatch hout
    · intro hmem
      exact htext (List.mem_of_mem_drop ((List.takeWhile_sublist inWord).subset hmem))
    · rw [nulterminate_apply, if_pos]
      exact List.mem_map.2 ⟨a, ha, hspell.2⟩
    · rw [wordAt]
      omega
  generalize nulterminate cmd (char text) = buf at hword
  clear hcmd
  induction cmd with
  | exec argv => exact congrArg Tree.exec (List.map_congr_left hword)
  | redir cmd file efile mode fd ih =>
    rw [Cmd.tree, Cmd.plain, hword _ List.mem_cons_self,
      ih fun a ha => hword a (List.mem_cons_of_mem _ ha)]
  | pipe left right ihl ihr =>
    rw [Cmd.tree, Cmd.plain, ihl fun a ha => hword a (List.mem_append_left _ ha),
      ihr fun a ha => hword a (List.mem_append_right _ ha)]
  | list left right ihl ihr =>
    rw [Cmd.tree, Cmd.plain, ihl fun a ha => hword a (List.mem_append_left _ ha),
      ihr fun a ha => hword a (List.mem_append_right _ ha)]
  | back cmd ih => rw [Cmd.tree, Cmd.plain, ih hword]

end Xv6Container.Shell
