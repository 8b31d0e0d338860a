import Xv6Container.Console.Editing

/-! What `consoleread` delivers. The bytes that the readers take are the committed ones, in order; a
^D is taken only by a call that has nothing else and returns 0. -/

namespace Xv6Container.Console

open Lib

/-! ### The loop -/

/-- The loop takes `m`, stores `l` and ends in `x`, where `n` of `target` bytes were left. -/
def Takes (target n : ℕ) (m l : List Byte) : Input.Exit → Prop
  | .asleep k => m = l ∧ k + l.length = n
  | .killed => m = l
  | .done k => k + l.length = n ∧
      (m = l ∧ (k < target ∨ target = 0) ∨ m = [C 'D'] ∧ l = [] ∧ k = target ∧ 0 < target)

theorem Takes.cons {target n : ℕ} {m l : List Byte} {x : Input.Exit} (h : Takes target n m l x)
    (hn : n < target) (c : Byte) : Takes target (n + 1) (c :: m) (c :: l) x := by
  cases x with
  | asleep k => exact ⟨congrArg _ h.1, by rw [List.length_cons, ← h.2]; rfl⟩
  | killed => exact congrArg (List.cons c) h
  | done k =>
    obtain ⟨hk, ⟨hm, hlt⟩ | ⟨-, -, hk', -⟩⟩ := h
    · exact ⟨by rw [List.length_cons, ← hk]; rfl, .inl ⟨congrArg _ hm, hlt⟩⟩
    · omega

namespace Input
variable {i j : Input} {killed : Bool} {target n : ℕ} {l : List Byte} {x : Exit}

theorem ready_eq_cons (h : i.r ≠ i.w) :
    i.ready = i.cell i.r :: ({ i with r := i.r + 1 } : Input).ready := by
  apply Ring.contents_drop
  rw [Ne, Ring.count_eq_zero]
  exact h

theorem readLoop_takes (hn : n ≤ target) (h : i.readLoop killed target n = (l, x, j)) :
    ∃ m, i.ready = m ++ j.ready ∧ j = { i with r := j.r } ∧ Takes target n m l x ∧ C 'D' ∉ l := by
  induction n generalizing i l with
  | zero =>
    cases h
    refine ⟨[], rfl, rfl, ⟨rfl, .inl ⟨rfl, ?_⟩⟩, List.not_mem_nil⟩
    exact (Nat.eq_zero_or_pos target).symm
  | succ n ih =>
    rw [readLoop] at h
    dsimp only at h
    split_ifs at h with hempty hkilled heof hkeep hline
    · cases h
      exact ⟨[], rfl, rfl, rfl, List.not_mem_nil⟩
    · cases h
      exact ⟨[], rfl, rfl, ⟨rfl, rfl⟩, List.not_mem_nil⟩
    · cases h
      refine ⟨[], ?_, ?_, ⟨rfl, .inl ⟨rfl, .inl hkeep⟩⟩, List.not_mem_nil⟩
      · show i.ready = ({ i with r := i.r + 1 - 1 } : Input).ready
        rw [BitVec.add_sub_cancel]
      · rfl
    · cases h
      refine ⟨[C 'D'], ?_, rfl, ⟨rfl, .inr ⟨rfl, rfl, by omega, by omega⟩⟩, List.not_mem_nil⟩
      rw [ready_eq_cons hempty, heof]
      rfl
    · cases h
      refine ⟨[i.cell i.r], ready_eq_cons hempty, rfl, ⟨rfl, .inl ⟨rfl, .inl hn⟩⟩, ?_⟩
      rw [List.mem_singleton]
      exact fun hc => heof hc.symm
    · cases hrest : readLoop killed target n { i with r := i.r + 1 } with
      | mk l' rest =>
        obtain ⟨x', j'⟩ := rest
        rw [hrest] at h
        cases h
        obtain ⟨m, hready, hj, htakes, hd⟩ := ih (by omega) hrest
        refine ⟨i.cell i.r :: m, ?_, hj, htakes.cons hn _, ?_⟩
        · rw [ready_eq_cons hempty, hready]
          rfl
        · rw [List.mem_cons, not_or]
          exact ⟨fun hc => heof hc.symm, hd⟩

/-- What `r` has passed is what is no longer ready. -/
theorem passed_eq {m : List Byte} (h : i.ready = m ++ j.ready) (hj : j = { i with r := j.r }) :
    passed i j = m ∧ (j.r - i.r).toNat = m.length ∧ m.length ≤ (i.w - i.r).toNat := by
  have hlength := congrArg List.length h
  have hi : i.ready.length = (i.w - i.r).toNat := Ring.length_contents _
  have hjl : j.ready.length = (i.w - j.r).toNat := by
    rw [hj]
    exact Ring.length_contents _
  rw [List.length_append, hi, hjl] at hlength
  have hr : (j.r - i.r).toNat = m.length := by
    bv_omega
  have hsplit : i.ready = passed i j ++ j.ready := by
    rw [hj]
    exact Ring.contents_split (by dsimp only; omega)
  rw [h] at hsplit
  exact ⟨(List.append_cancel_right hsplit).symm, hr, by omega⟩

end Input

/-! ### Runs -/

variable {ι : Type*}

/-- The bytes that are taken move the editor's mark. -/
def Editor.follow (d : Editor) : Event ι → Editor
  | .typed cs => cs.foldl Editor.type d
  | .called .. => d
  | .took _ _ bytes _ => { d with eaten := d.eaten + bytes.length }

/-- The editor after what has been seen. -/
def editor (l : List (Event ι)) : Editor := l.foldl Editor.follow .start

def Event.bytes : Event ι → List Byte
  | .took _ _ bytes _ => bytes
  | _ => []

/-- The bytes that all readers have taken. -/
def eaten (l : List (Event ι)) : List Byte := l.flatMap Event.bytes

/-- A call that asks for something and returns 0. -/
def Event.eof : Event ι → Bool
  | .took _ n _ (some (.returned r _)) => decide (0 < n ∧ r = 0)
  | _ => false

variable [DecidableEq ι]

/-- What `p` has in its buffer: the bytes that it has taken since its call, but for ^D. -/
def Event.keep (p : ι) (l : List Byte) : Event ι → List Byte
  | .typed _ => l
  | .called q _ => if q = p then [] else l
  | .took q _ bytes _ => if q = p then l ++ bytes.filter (· ≠ C 'D') else l

def mine (p : ι) (l : List (Event ι)) : List Byte := l.foldl (Event.keep p) []

/-- After `l`, a call that returns has delivered what it has taken, and it has taken a ^D exactly if
it returns 0 although something was asked for. -/
def Event.Fair (l : List (Event ι)) : Event ι → Prop
  | .took p n bytes (some (.returned r dst)) =>
    dst = mine p l ++ bytes.filter (· ≠ C 'D') ∧ r = dst.length ∧ r ≤ n.toNat ∧
      (C 'D' ∈ bytes ↔ 0 < n ∧ r = 0) ∧ (C 'D' ∈ bytes → bytes = [C 'D'])
  | .took _ _ bytes _ => C 'D' ∉ bytes
  | _ => True

structure Reads (l : List (Event ι)) (s : Sys ι) : Prop where
  edits : Edits s.input (editor l)
  eaten : eaten l = (editor l).committed.take (editor l).eaten
  calls : ∀ p c, s.call p = some c → c.dst = mine p l ∧ c.n + c.dst.length = c.target.toNat
  fair : ∀ l₁ e l₂, l = l₁ ++ e :: l₂ → e.Fair l₁
  ends : (Console.eaten l).count (C 'D') = l.countP Event.eof

omit [DecidableEq ι] in
@[simp] theorem editor_concat (l : List (Event ι)) (e : Event ι) :
    editor (l ++ [e]) = (editor l).follow e := by
  rw [editor, List.foldl_append]
  rfl

omit [DecidableEq ι] in
@[simp] theorem eaten_concat (l : List (Event ι)) (e : Event ι) :
    eaten (l ++ [e]) = eaten l ++ e.bytes := by
  rw [eaten, List.flatMap_append, List.flatMap_singleton]
  rfl

@[simp] theorem mine_concat (p : ι) (l : List (Event ι)) (e : Event ι) :
    mine p (l ++ [e]) = e.keep p (mine p l) := by
  rw [mine, List.foldl_append]
  rfl

namespace Editor

/-- What has been committed stays. -/
theorem committed_type (d : Editor) (c : Byte) :
    d.committed <+: (d.type c).committed ∧ (d.type c).eaten = d.eaten := by
  unfold type add
  split_ifs
  all_goals first
    | exact ⟨List.prefix_rfl, rfl⟩
    | exact ⟨(List.prefix_append ..).trans (List.prefix_append ..), rfl⟩

theorem committed_typed (d : Editor) (cs : List Byte) :
    d.committed <+: (cs.foldl type d).committed ∧ (cs.foldl type d).eaten = d.eaten := by
  induction cs generalizing d with
  | nil => exact ⟨List.prefix_rfl, rfl⟩
  | cons c cs ih =>
    obtain ⟨hc, he⟩ := committed_type d c
    obtain ⟨hcs, hes⟩ := ih (d.type c)
    exact ⟨hc.trans hcs, hes.trans he⟩

omit [DecidableEq ι] in
theorem committed_follow (d : Editor) (l : List (Event ι)) :
    d.committed <+: (l.foldl follow d).committed := by
  induction l generalizing d with
  | nil => exact List.prefix_rfl
  | cons e l ih =>
    refine List.IsPrefix.trans ?_ (ih (d.follow e))
    cases e with
    | typed cs => exact (committed_typed d cs).1
    | _ => exact List.prefix_rfl

end Editor

namespace Reads
variable {l : List (Event ι)} {s t : Sys ι}

theorem eaten_le (h : Reads l s) : (editor l).eaten ≤ (editor l).committed.length := by
  have := h.edits.ready
  omega

/-- One more event is seen. -/
theorem concat (h : Reads l s) {e : Event ι} (hedits : Edits t.input ((editor l).follow e))
    (heaten : Console.eaten l ++ e.bytes =
      ((editor l).follow e).committed.take ((editor l).follow e).eaten)
    (hcalls : ∀ p c, t.call p = some c →
      c.dst = e.keep p (mine p l) ∧ c.n + c.dst.length = c.target.toNat)
    (hfair : e.Fair l) (hends : e.bytes.count (C 'D') = if e.eof then 1 else 0) :
    Reads (l ++ [e]) t := by
  constructor
  case edits =>
    rwa [editor_concat]
  case eaten =>
    rwa [eaten_concat, editor_concat]
  case calls =>
    intro p c hc
    rw [mine_concat]
    exact hcalls p c hc
  case fair =>
    intro l₁ f l₂ hl
    rcases List.eq_nil_or_concat l₂ with rfl | ⟨l₃, g, rfl⟩
    · obtain ⟨rfl, he⟩ := List.append_inj' hl rfl
      cases he
      exact hfair
    · rw [List.concat_eq_append, ← List.cons_append, ← List.append_assoc] at hl
      obtain ⟨hl, -⟩ := List.append_inj' hl rfl
      exact h.fair l₁ f l₃ hl
  case ends =>
    rw [eaten_concat, List.count_append, h.ends, hends, List.countP_append, List.countP_singleton]

theorem intr (h : Reads l s) {cs : List Byte} (hi : t.input = (s.input.consoleintr cs).1)
    (hcall : t.call = s.call) : Reads (l ++ [.typed cs]) t := by
  obtain ⟨hcommitted, heaten⟩ := (editor l).committed_typed cs
  have hedits := h.edits.consoleintr cs
  rw [← hi] at hedits
  refine h.concat hedits ?_ (fun p c hc => ?_) trivial rfl
  · show Console.eaten l ++ [] = (cs.foldl Editor.type (editor l)).committed.take
      (cs.foldl Editor.type (editor l)).eaten
    obtain ⟨rest, hrest⟩ := hcommitted
    rw [List.append_nil, heaten, ← hrest, List.take_append_of_le_length h.eaten_le]
    exact h.eaten
  · rw [hcall] at hc
    exact h.calls p c hc

theorem called (h : Reads l s) {p : ι} {n : ℤ} (hi : t.input = s.input)
    (hcall : t.call = Function.update s.call p (some ⟨n, n.toNat, []⟩)) :
    Reads (l ++ [.called p n]) t := by
  refine h.concat ?_ ?_ (fun q c hc => ?_) trivial rfl
  · rw [hi]
    exact h.edits
  · show Console.eaten l ++ [] = _
    rw [List.append_nil]
    exact h.eaten
  · rw [hcall] at hc
    by_cases hq : q = p
    · subst hq
      rw [Function.update_self] at hc
      cases hc
      rw [Event.keep, if_pos rfl]
      exact ⟨rfl, rfl⟩
    · rw [Function.update_of_ne hq] at hc
      rw [Event.keep, if_neg (Ne.symm hq)]
      exact h.calls q c hc

theorem filter_of_not_mem {l : List Byte} (h : C 'D' ∉ l) : l.filter (· ≠ C 'D') = l := by
  rw [List.filter_eq_self]
  intro c hc
  rw [decide_eq_true_eq]
  rintro rfl
  exact h hc

/-- A section of `consoleread`. -/
theorem took (h : Reads l s) {p : ι} {c : Call} (hcall : s.call p = some c) {r : List Byte}
    {x : Input.Exit} {j : Input}
    (hloop : s.input.readLoop (s.killed p) c.target.toNat c.n = (r, x, j)) :
    Reads (l ++ [.took p c.target (passed s.input j) (x.result c.target (c.dst ++ r))])
      (consoleread s p c) := by
  obtain ⟨hdst, hn⟩ := h.calls p c hcall
  obtain ⟨m, hready, hj, htakes, hd⟩ := Input.readLoop_takes (by omega) hloop
  obtain ⟨hpassed, hr, hle⟩ := Input.passed_eq hready hj
  rw [hpassed]
  have hinput : (consoleread s p c).input = j := by
    unfold consoleread
    rw [hloop]
    cases x <;> rfl
  refine h.concat ?_ ?_ (fun q c' hc => ?_) ?_ ?_
  · rw [hinput, hj]
    exact h.edits.eat hr hle
  · show Console.eaten l ++ m = (editor l).committed.take ((editor l).eaten + m.length)
    rw [h.eaten, List.take_add, ← h.edits.parts.1, hready, List.take_left]
  · by_cases hq : q = p
    · subst hq
      -- the call goes on only if it sleeps
      unfold consoleread at hc
      rw [hloop] at hc
      cases x with
      | asleep k =>
        dsimp only at hc
        rw [Function.update_self] at hc
        cases hc
        obtain ⟨rfl, hk⟩ := htakes
        rw [Event.keep, if_pos rfl, filter_of_not_mem hd, ← hdst]
        refine ⟨rfl, ?_⟩
        show k + (c.dst ++ m).length = c.target.toNat
        rw [List.length_append]
        omega
      | killed =>
        dsimp only at hc
        rw [Function.update_self] at hc
        cases hc
      | done k =>
        dsimp only at hc
        rw [Function.update_self] at hc
        cases hc
    · have hother : (consoleread s p c).call q = s.call q := by
        unfold consoleread
        rw [hloop]
        cases x <;> exact Function.update_of_ne hq ..
      rw [hother] at hc
      rw [Event.keep, if_neg (Ne.symm hq)]
      exact h.calls q c' hc
  · cases x with
    | asleep k =>
      obtain ⟨rfl, -⟩ := htakes
      exact hd
    | killed =>
      cases htakes
      exact hd
    | done k =>
      obtain ⟨hk, ⟨rfl, hlt⟩ | ⟨rfl, rfl, rfl, hlt⟩⟩ := htakes
      · refine ⟨?_, ?_, ?_, ⟨fun hm => absurd hm hd, fun hz => ?_⟩, fun hm => absurd hm hd⟩
        · rw [filter_of_not_mem hd, hdst]
        · rw [List.length_append]
          omega
        · omega
        · omega
      · refine ⟨?_, ?_, ?_, ⟨fun _ => ?_, fun _ => List.mem_singleton.2 rfl⟩, fun _ => rfl⟩
        · rw [hdst]
          rfl
        · rw [List.length_append, ← hn, ← hk]
          have hzero : c.dst.length = 0 := by
            rw [List.length_nil] at hk
            omega
          rw [hzero]
          omega
        · omega
        · omega
  · cases x with
    | asleep k =>
      obtain ⟨rfl, -⟩ := htakes
      exact List.count_eq_zero.2 hd
    | killed =>
      cases htakes
      exact List.count_eq_zero.2 hd
    | done k =>
      obtain ⟨hk, ⟨rfl, hlt⟩ | ⟨rfl, rfl, rfl, hlt⟩⟩ := htakes
      · show List.count _ m = if decide (0 < c.target ∧ (c.target.toNat - k : ℤ) = 0) then 1 else 0
        rw [List.count_eq_zero.2 hd, if_neg]
        rw [decide_eq_true_eq]
        omega
      · show 1 = if decide (0 < c.target ∧ (c.target.toNat - c.target.toNat : ℤ) = 0) then 1 else 0
        rw [if_pos]
        rw [decide_eq_true_eq]
        omega

theorem step (h : Reads l s) {a : Act ι} (ht : Console.step s a = .ok t) :
    Reads (l ++ (seen s a).toList) t := by
  cases a with
  | intr cs =>
    cases ht
    exact h.intr rfl rfl
  | consoleread p n =>
    simp only [Console.step] at ht
    split at ht
    · cases ht
      exact h.called rfl rfl
    · cases ht
  | run p =>
    simp only [Console.step] at ht
    split at ht
    next c hcall _ =>
      cases ht
      simp only [seen, hcall, Option.toList_some]
      exact h.took hcall rfl
    · cases ht
  | kill p =>
    cases ht
    show Reads (l ++ []) _
    rw [List.append_nil]
    exact ⟨h.edits, h.eaten, h.calls, h.fair, h.ends⟩

end Reads

omit [DecidableEq ι] in
theorem Start.edits {s : Sys ι} (h : Start s) : Edits s.input .start := by
  rw [h.input]
  exact ⟨rfl, rfl, by decide, List.not_mem_nil⟩

theorem Start.reads {s : Sys ι} (h : Start s) : Reads [] s := by
  refine ⟨h.edits, rfl, fun p c hc => ?_, fun l₁ e l₂ hl => ?_, rfl⟩
  · rw [h.call] at hc
    cases hc
  · cases List.append_eq_nil_iff.1 hl.symm |>.2

/-- The indices stay in order, whatever is typed and read. What the readers have taken, with what is
ready for them, is what has been committed, and no edit changes it; each call delivers what it has
taken, and each ^D is the end of file of one call. -/
theorem console_reads {s t : Sys ι} {l : List (Event ι)} (hs : Start s)
    (hl : Trace step always seen s l t) :
    ((t.input.w - t.input.r).toNat ≤ (t.input.e - t.input.r).toNat ∧
      (t.input.e - t.input.r).toNat ≤ INPUT_BUF) ∧
    (editor l).committed = eaten l ++ t.input.ready ∧ t.input.typing = (editor l).line ∧
    (∀ l₁ l₂, l = l₁ ++ l₂ → (editor l₁).committed <+: (editor l).committed) ∧
    (∀ l₁ e l₂, l = l₁ ++ e :: l₂ → e.Fair l₁) ∧
    (eaten l).count (C 'D') = l.countP Event.eof := by
  have h : Reads l t := hl.invariant hs.reads fun _ _ _ _ h _ ht => h.step ht
  obtain ⟨hready, htyping⟩ := h.edits.parts
  have heq := h.edits.eq_add
  refine ⟨⟨by omega, h.edits.fits⟩, ?_, htyping, fun l₁ l₂ hl => ?_, h.fair, h.ends⟩
  · rw [h.eaten, hready, List.take_append_drop]
  · rw [hl, editor, editor, List.foldl_append]
    exact Editor.committed_follow _ _

/-- Nobody has typed or read. -/
def quiet : Sys (Fin 2) := ⟨.start, fun _ => none, fun _ => false, fun _ => false⟩

/-- A corrected line and then ^D: the first call takes the line, the second one the end of file. -/
theorem console_reads_line : ∃ l t, Trace step always seen quiet l t ∧
    eaten l = [chr 'a', chr 'c', chr '\n', C 'D'] ∧ l.countP Event.eof = 1 := by
  obtain ⟨l, t, hl, htest⟩ := (Trace.nil : Trace step always seen quiet [] quiet).of_watch
    (fun l _ => decide (eaten l = [chr 'a', chr 'c', chr '\n', C 'D']))
    [.consoleread 0 10, .run 0, .intr [chr 'a', chr 'b', C 'H', chr 'c', chr '\r', C 'D'], .run 0,
      .consoleread 1 10, .run 1] (by decide +kernel)
  have heaten := of_decide_eq_true htest
  refine ⟨l, t, hl, heaten, ?_⟩
  rw [← (console_reads ⟨rfl, fun _ => rfl⟩ hl).2.2.2.2.2, heaten]
  decide

end Xv6Container.Console
