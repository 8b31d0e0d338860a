import Xv6Container.Grep.Match
import Xv6Container.Lib.Lines
import Xv6Container.Lib.Numerals

/-! `grep` reads its input in the pieces that `read` happens to return. -/

namespace Xv6Container.Grep

open Lib

def newline : UInt8 := '\n'.toUInt8

/-! ### The source -/

/-- What is in front of the first `c` of a string, and what is behind it. -/
def strchr (c : UInt8) : List UInt8 → Option (List UInt8 × List UInt8)
  | [] => none
  | x :: s =>
    if x = 0 then none
    else if x = c then some ([], s)
    else (strchr c s).map fun r => (x :: r.1, r.2)

theorem strchr_length {c : UInt8} {s : List UInt8} {r : List UInt8 × List UInt8}
    (h : strchr c s = some r) : r.2.length < s.length := by
  induction s generalizing r with
  | nil => cases h
  | cons x s ih =>
    rw [strchr] at h
    split_ifs at h
    · cases h
      exact Nat.lt_succ_self _
    · obtain ⟨r', hr', rfl⟩ := Option.map_eq_some_iff.1 h
      exact (ih hr').trans (Nat.lt_succ_self _)

/-- The loop over the lines in the buffer from `p` on: what is written, and where `p` stops. -/
def lineLoop (pattern p : List UInt8) : List UInt8 × List UInt8 :=
  match _h : strchr newline p with
  | none => ([], p)
  | some q =>
    let r := lineLoop pattern q.2
    ((if matchText pattern q.1 then q.1 ++ [newline] else []) ++ r.1, r.2)
termination_by p.length
decreasing_by exact strchr_length _h

/-- `sizeof(buf)` -/
def bufSize : ℕ := 1024

/-- The loop of `grep`, with the `m` bytes that `buf` begins with, and the pieces that `read` is
going to return. It yields what is written, unless a piece is empty or longer than asked for. -/
def grepLoop (pattern : List UInt8) : List UInt8 → List (List UInt8) → Option (List UInt8)
  | _, [] => some []
  | buf, piece :: pieces =>
    if piece ≠ [] ∧ piece.length ≤ bufSize - buf.length - 1 then
      let text := buf ++ piece
      let (out, p) := lineLoop pattern text
      -- `p == buf`: no newline has been found
      (grepLoop pattern (if p.length = text.length then [] else p) pieces).map (out ++ ·)
    else none

def grep (pattern : List UInt8) (pieces : List (List UInt8)) : Option (List UInt8) :=
  grepLoop pattern [] pieces

/-! ### What it is for -/

/-- The lines of the input that match, in order. -/
def matching (pattern stream : List UInt8) : List UInt8 :=
  written newline ((terminated newline stream).filter (matchText pattern))

/-- The beginning of a line that stays in the buffer, after a pass over the bytes in it: it is
forgotten if there is no newline in front of it. -/
def carried (text : List UInt8) : List UInt8 :=
  if newline ∈ text then unfinished newline text else []

/-- The lines as `grep` gets to see them. -/
def heard : List UInt8 → List (List UInt8) → List (List UInt8)
  | _, [] => []
  | buf, piece :: pieces =>
    terminated newline (buf ++ piece) ++ heard (carried (buf ++ piece)) pieces

/-- A piece without a newline comes only behind the last newline of the input. -/
def NewlinesInTime (pieces : List (List UInt8)) : Prop :=
  ∀ before piece behind, pieces = before ++ piece :: behind → newline ∈ behind.flatten → newline ∈ piece

variable {pattern buf text out piece w : List UInt8} {pieces : List (List UInt8)}

/-! ### One pass -/

theorem strchr_of_notMem (h : newline ∉ text) : strchr newline text = none := by
  induction text with
  | nil => rfl
  | cons x text ih =>
    rw [List.mem_cons, not_or] at h
    rw [strchr, ih h.2, if_neg (Ne.symm h.1)]
    exact ite_self _

theorem strchr_append_cons (hzero : 0 ∉ w) (hw : newline ∉ w) :
    strchr newline (w ++ newline :: text) = some (w, text) := by
  induction w with
  | nil => rfl
  | cons x w ih =>
    rw [List.mem_cons, not_or] at hzero hw
    rw [List.cons_append, strchr, if_neg (Ne.symm hzero.1), if_neg (Ne.symm hw.1),
      ih hzero.2 hw.2]
    rfl

theorem lineLoop_of_none (h : strchr newline text = none) : lineLoop pattern text = ([], text) := by
  rw [lineLoop]
  split
  · rfl
  · rename_i h'
    rw [h] at h'
    cases h'

theorem lineLoop_of_some {q : List UInt8 × List UInt8} (h : strchr newline text = some q) :
    lineLoop pattern text = ((if matchText pattern q.1 then q.1 ++ [newline] else []) ++
      (lineLoop pattern q.2).1, (lineLoop pattern q.2).2) := by
  rw [lineLoop]
  split
  · rename_i h'
    rw [h] at h'
    cases h'
  · rename_i h'
    rw [h] at h'
    cases h'
    rfl

/-- The loop writes the lines that match, and leaves the one that is not finished. -/
theorem lineLoop_eq (hzero : 0 ∉ text) :
    lineLoop pattern text = (matching pattern text, unfinished newline text) := by
  induction text using lines_induction newline with
  | last text h =>
    rw [lineLoop_of_none (strchr_of_notMem h), matching, terminated_of_notMem h,
      unfinished_of_notMem h]
    rfl
  | line w text hw ih =>
    rw [List.mem_append, List.mem_cons, not_or, not_or] at hzero
    rw [lineLoop_of_some (strchr_append_cons hzero.1 hw), ih hzero.2.2, matching, matching,
      terminated_append_cons hw, unfinished_append_cons hw, List.filter_cons]
    split_ifs
    · rw [written_cons, List.append_assoc]
      rfl
    · rfl

/-- The pointer has not moved just when there is no newline. -/
theorem unfinished_length_eq : (unfinished newline text).length = text.length ↔ newline ∉ text := by
  constructor
  · intro h hmem
    exact (unfinished_length_lt hmem).ne h
  · intro h
    rw [unfinished_of_notMem h]

theorem notMem_carried {x : UInt8} (h : x ∉ text) : x ∉ carried text := by
  rw [carried]
  split_ifs
  · intro hmem
    refine h ?_
    rw [← written_terminated newline text]
    exact List.mem_append_right _ hmem
  · exact List.not_mem_nil

theorem newline_notMem_carried (text : List UInt8) : newline ∉ carried text := by
  rw [carried]
  split_ifs
  · exact notMem_unfinished text
  · exact List.not_mem_nil

/-- One turn of the loop. -/
theorem grepLoop_cons (hzero : 0 ∉ buf ++ piece) : grepLoop pattern buf (piece :: pieces) =
    if piece ≠ [] ∧ piece.length ≤ bufSize - buf.length - 1 then
      (grepLoop pattern (carried (buf ++ piece)) pieces).map (matching pattern (buf ++ piece) ++ ·)
    else none := by
  rw [grepLoop]
  dsimp only
  rw [lineLoop_eq hzero]
  dsimp only
  simp only [unfinished_length_eq, ite_not, carried]

/-! ### The whole input -/

theorem notMem_of_flatten_cons {x : UInt8} (hbuf : x ∉ buf) (h : x ∉ (piece :: pieces).flatten) :
    x ∉ buf ++ piece ∧ x ∉ pieces.flatten := by
  rw [List.flatten_cons, List.mem_append, not_or] at h
  rw [List.mem_append, not_or]
  exact ⟨⟨hbuf, h.1⟩, h.2⟩

/-- What is written are the lines heard that match. -/
theorem grepLoop_eq (hbuf : 0 ∉ buf) (hzero : 0 ∉ pieces.flatten)
    (h : grepLoop pattern buf pieces = some out) :
    out = written newline ((heard buf pieces).filter (matchText pattern)) := by
  induction pieces generalizing buf out with
  | nil =>
    cases h
    rfl
  | cons piece pieces ih =>
    obtain ⟨htext, hzero⟩ := notMem_of_flatten_cons hbuf hzero
    rw [grepLoop_cons htext] at h
    split_ifs at h
    obtain ⟨out', hout', rfl⟩ := Option.map_eq_some_iff.1 h
    rw [heard, List.filter_append, written_append, ← ih (notMem_carried htext) hzero hout']
    rfl

/-- How the input is cut does not depend on the pattern. -/
theorem grepLoop_isSome (pattern' : List UInt8) (hbuf : 0 ∉ buf) (hzero : 0 ∉ pieces.flatten)
    (h : grepLoop pattern buf pieces = some out) :
    ∃ out', grepLoop pattern' buf pieces = some out' := by
  induction pieces generalizing buf out with
  | nil => exact ⟨[], rfl⟩
  | cons piece pieces ih =>
    obtain ⟨htext, hzero⟩ := notMem_of_flatten_cons hbuf hzero
    rw [grepLoop_cons htext] at h ⊢
    split_ifs at h ⊢ with hpiece
    obtain ⟨rest, hrest, -⟩ := Option.map_eq_some_iff.1 h
    obtain ⟨rest', hrest'⟩ := ih (notMem_carried htext) hzero hrest
    rw [hrest']
    exact ⟨_, rfl⟩

theorem ne_nil_of_grepLoop (h : grepLoop pattern buf pieces = some out) :
    ∀ piece ∈ pieces, piece ≠ [] := by
  induction pieces generalizing buf out with
  | nil =>
    intro piece hmem
    cases hmem
  | cons piece pieces ih =>
    rw [grepLoop] at h
    split_ifs at h with hpiece
    obtain ⟨out', h, -⟩ := Option.map_eq_some_iff.1 h
    exact List.forall_mem_cons.2 ⟨hpiece.1, ih h⟩

theorem notMem_of_mem_heard (h : w ∈ heard buf pieces) : newline ∉ w := by
  induction pieces generalizing buf with
  | nil => cases h
  | cons piece pieces ih =>
    rw [heard, List.mem_append] at h
    rcases h with h | h
    · exact notMem_of_mem_terminated h
    · exact ih h

/-- Bytes in front of a newline make the first line longer. -/
theorem terminated_length {l : List UInt8} (htext : newline ∉ text) (hl : newline ∈ l) :
    (written newline (terminated newline (text ++ l))).length =
      text.length + (written newline (terminated newline l)).length := by
  obtain ⟨w, t, rfl, hw⟩ := List.eq_append_cons_of_mem hl
  have htw : newline ∉ text ++ w := by
    rw [List.mem_append, not_or]
    exact ⟨htext, hw⟩
  rw [← List.append_assoc, terminated_append_cons htw, terminated_append_cons hw, written_cons,
    written_cons, List.length_append, List.length_append, List.length_append, Nat.add_assoc]

/-- `grep` hears no more than there is. -/
theorem heard_length_le (pieces : List (List UInt8)) (hbuf : newline ∉ buf) :
    (written newline (heard buf pieces)).length ≤
      (written newline (terminated newline (buf ++ pieces.flatten))).length := by
  induction pieces generalizing buf with
  | nil => exact Nat.zero_le _
  | cons piece pieces ih =>
    have hrest := ih (newline_notMem_carried (buf ++ piece))
    rw [heard, List.flatten_cons, ← List.append_assoc]
    by_cases hnl : newline ∈ buf ++ piece
    · rw [carried, if_pos hnl] at hrest ⊢
      rw [terminated_append (buf ++ piece), written_append, written_append, List.length_append,
        List.length_append]
      exact Nat.add_le_add_left hrest _
    · rw [carried, if_neg hnl, List.nil_append] at hrest
      rw [carried, if_neg hnl, terminated_of_notMem hnl, List.nil_append]
      refine hrest.trans ?_
      by_cases hmem : newline ∈ pieces.flatten
      · rw [terminated_length hnl hmem]
        exact Nat.le_add_left _ _
      · rw [terminated_of_notMem hmem]
        exact Nat.zero_le _

theorem newlinesInTime_cons : NewlinesInTime (piece :: pieces) ↔
    (newline ∈ pieces.flatten → newline ∈ piece) ∧ NewlinesInTime pieces := by
  constructor
  · intro h
    refine ⟨h [] piece pieces rfl, ?_⟩
    rintro before c behind rfl
    exact h (piece :: before) c behind rfl
  · rintro ⟨hpiece, h⟩ before c behind heq
    cases before with
    | nil =>
      obtain ⟨rfl, rfl⟩ := List.cons.inj heq
      exact hpiece
    | cons d before =>
      obtain ⟨-, rfl⟩ := List.cons.inj heq
      exact h before c behind rfl

/-- Every line is heard as a whole if no piece without a newline comes too early, and only then: the
bytes of such a piece are missing from what is heard. -/
theorem heard_eq_iff (hbuf : newline ∉ buf) (hne : ∀ piece ∈ pieces, piece ≠ []) :
    heard buf pieces = terminated newline (buf ++ pieces.flatten) ↔ NewlinesInTime pieces := by
  induction pieces generalizing buf with
  | nil =>
    rw [List.flatten_nil, List.append_nil, heard, terminated_of_notMem hbuf]
    refine iff_of_true rfl ?_
    intro before piece behind heq
    exact absurd heq.symm (List.append_ne_nil_of_right_ne_nil _ (List.cons_ne_nil _ _))
  | cons piece pieces ih =>
    obtain ⟨hpiece, hne⟩ := List.forall_mem_cons.1 hne
    have ih := ih (newline_notMem_carried (buf ++ piece)) hne
    rw [heard, List.flatten_cons, ← List.append_assoc, newlinesInTime_cons, ← ih]
    by_cases hnl : newline ∈ piece
    · have htext : newline ∈ buf ++ piece := List.mem_append_right _ hnl
      rw [terminated_append (buf ++ piece), List.append_right_inj, carried, if_pos htext]
      exact (and_iff_right fun _ => hnl).symm
    · have htext : newline ∉ buf ++ piece := by
        rw [List.mem_append, not_or]
        exact ⟨hbuf, hnl⟩
      rw [carried, if_neg htext, terminated_of_notMem htext, List.nil_append, List.nil_append]
      by_cases hmem : newline ∈ pieces.flatten
      · refine iff_of_false ?_ fun h => hnl (h.1 hmem)
        intro h
        have hle := heard_length_le pieces List.not_mem_nil
        have hpos := List.length_pos_of_ne_nil hpiece
        rw [h, terminated_length htext hmem, List.nil_append, List.length_append] at hle
        omega
      · rw [terminated_of_notMem hmem, terminated_of_notMem, and_iff_right fun h => absurd h hmem]
        rw [List.mem_append, not_or]
        exact ⟨htext, hmem⟩

/-- The empty pattern matches every line. -/
theorem matchText_nil (text : List UInt8) : matchText [] text = true := by
  rw [matchText, if_neg (by simp)]
  cases text with
  | nil => rw [matchLoop, matchhere]
  | cons x text => rw [matchLoop, matchhere, Bool.true_or]

theorem matching_nil (text : List UInt8) :
    matching [] text = written newline (terminated newline text) := by
  rw [matching, List.filter_eq_self.2 fun w _ => matchText_nil w]

/-- For one pattern, `grep` writes the lines that match just when these are the same among the lines
it hears. It writes them for every pattern just when the input comes in pieces of which none without a
newline stands before the last newline. -/
theorem grep_writes_iff (hzero : 0 ∉ pieces.flatten) (h : grep pattern pieces = some out) :
    (out = matching pattern pieces.flatten ↔ (heard [] pieces).filter (matchText pattern) =
      (terminated newline pieces.flatten).filter (matchText pattern)) ∧
    ((∀ pattern, grep pattern pieces = some (matching pattern pieces.flatten)) ↔
      NewlinesInTime pieces) := by
  have hheard : ∀ pattern, ∀ w ∈ (heard [] pieces).filter (matchText pattern), newline ∉ w :=
    fun _ w hw => notMem_of_mem_heard (List.mem_filter.1 hw).1
  have hlines : ∀ pattern, ∀ w ∈ (terminated newline pieces.flatten).filter (matchText pattern),
      newline ∉ w := fun _ w hw => notMem_of_mem_terminated (List.mem_filter.1 hw).1
  have heq := heard_eq_iff List.not_mem_nil (ne_nil_of_grepLoop h)
  rw [List.nil_append] at heq
  constructor
  · rw [grepLoop_eq List.not_mem_nil hzero h, matching, written_inj (hheard _) (hlines _)]
  · rw [← heq]
    constructor
    · intro hall
      have := grepLoop_eq List.not_mem_nil hzero (hall [])
      rw [matching, written_inj (hlines _) (hheard _),
        List.filter_eq_self.2 fun w _ => matchText_nil w,
        List.filter_eq_self.2 fun w _ => matchText_nil w] at this
      exact this.symm
    · intro hall pattern'
      obtain ⟨out', hout'⟩ := grepLoop_isSome pattern' List.not_mem_nil hzero h
      rw [grep, hout', grepLoop_eq List.not_mem_nil hzero hout', hall, matching]

theorem grep_writes_iff_whole : (∀ pattern, grep pattern [[97, 10], [98, 10]] =
    some (matching pattern [97, 10, 98, 10])) ↔ NewlinesInTime [[97, 10], [98, 10]] := by
  have hrun : grep [] [[97, 10], [98, 10]] = some [97, 10, 98, 10] := by
    rw [grep, grepLoop_cons (by decide), if_pos (by decide), grepLoop_cons (by decide),
      if_pos (by decide), grepLoop, matching_nil, matching_nil]
    decide
  exact (grep_writes_iff (by decide) hrun).2

/-- The line `ab`, of which the first piece is `a`, is written as `b`. -/
theorem grep_forgets : grep [98] [[97], [98, 10]] = some [98, 10] ∧
    matching [98] [[97], [98, 10]].flatten = [97, 98, 10] := by
  have hhere : matchhere [98] [98] = true := by
    rw [matchhere, if_neg (by decide), if_neg (by decide)]
    simp [matchhere]
  have hb : matchText [98] [98] = true := by
    rw [matchText, if_neg (by decide), matchLoop, hhere, Bool.true_or]
  have hab : matchText [98] [97, 98] = true := by
    rw [matchText, if_neg (by decide), matchLoop, matchLoop, hhere, Bool.true_or, Bool.or_true]
  have hfirst : terminated newline ([] ++ [97]) = [] := by decide
  have hsecond : terminated newline (carried ([] ++ [97]) ++ [98, 10]) = [[98]] := by decide
  have hall : terminated newline [[97], [98, 10]].flatten = [[97, 98]] := by decide
  constructor
  · rw [grep, grepLoop_cons (by decide), if_pos (by decide), grepLoop_cons (by decide),
      if_pos (by decide), grepLoop, matching, matching, hfirst, hsecond,
      List.filter_cons_of_pos hb]
    rfl
  · rw [matching, hall, List.filter_cons_of_pos hab]
    rfl

end Xv6Container.Grep
